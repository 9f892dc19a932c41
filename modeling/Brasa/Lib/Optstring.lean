import Mathlib.Data.List.Chain
import Mathlib.Data.List.TakeWhile

/-!
# Brasa.Lib.Optstring

Tables of `(character, flag)` pairs written as **one string**: each character in
turn, with a separator behind it where the flag is set. The option string of
`getopt` is such a table, with `:` as the separator of options that take an
argument.

The string is read back without knowing where an entry starts, so a character
that equals the separator is misread behind an entry without a flag.
`decode_encode_iff` is the exact condition, `decode_cString_encode_iff` the one
for a reader that stops at a terminator.
-/

namespace Brasa.Lib.Optstring

variable {C : Type*} {sep : C}

/-- One entry of the table. -/
def encodeEntry (sep : C) (e : C × Bool) : List C := e.1 :: if e.2 then [sep] else []

/-- The table as a string. -/
def encode (sep : C) (es : List (C × Bool)) : List C := es.flatMap (encodeEntry sep)

theorem encode_cons (e : C × Bool) (es : List (C × Bool)) :
    encode sep (e :: es) = encodeEntry sep e ++ encode sep es := List.flatMap_cons

theorem encode_append (es fs : List (C × Bool)) :
    encode sep (es ++ fs) = encode sep es ++ encode sep fs := List.flatMap_append

theorem mem_encode {es : List (C × Bool)} {c : C} :
    c ∈ encode sep es ↔ (∃ e ∈ es, e.1 = c) ∨ c = sep ∧ ∃ e ∈ es, e.2 = true := by
  simp only [encode, List.mem_flatMap, encodeEntry, List.mem_cons]
  constructor
  · rintro ⟨e, he, rfl | hc⟩
    · exact .inl ⟨e, he, rfl⟩
    · cases hflag : e.2 with
      | true => exact .inr ⟨by simpa [hflag] using hc, e, he, hflag⟩
      | false => simp [hflag] at hc
  · rintro (⟨e, he, rfl⟩ | ⟨rfl, e, he, hflag⟩)
    · exact ⟨e, he, .inl rfl⟩
    · exact ⟨e, he, .inr (by simp [hflag])⟩

variable [DecidableEq C]

/-- Read a table back: a character, and whether a separator follows it. -/
def decode (sep : C) : List C → List (C × Bool)
  | [] => []
  | [c] => [(c, false)]
  | c :: d :: rest =>
    if d = sep then (c, true) :: decode sep rest else (c, false) :: decode sep (d :: rest)

theorem decode_flag (c : C) (rest : List C) :
    decode sep (c :: sep :: rest) = (c, true) :: decode sep rest := by
  rw [decode, if_pos rfl]

theorem decode_noFlag (c : C) {rest : List C} (h : rest.head? ≠ some sep) :
    decode sep (c :: rest) = (c, false) :: decode sep rest := by
  cases rest with
  | nil => rfl
  | cons d rest => rw [decode, if_neg fun hd => h (congrArg some hd)]

/-- Nothing is made up: every character of the table stands in the string. -/
theorem mem_of_mem_decode {s : List C} {e : C × Bool} (h : e ∈ decode sep s) : e.1 ∈ s := by
  fun_induction decode sep s with
  | case1 => cases h
  | case2 c =>
    rw [List.mem_singleton] at h
    exact h ▸ List.mem_cons_self
  | case3 c rest ih =>
    rcases List.mem_cons.mp h with rfl | h
    · exact List.mem_cons_self
    · exact List.mem_cons_of_mem _ (List.mem_cons_of_mem _ (ih h))
  | case4 c d rest hd ih =>
    rcases List.mem_cons.mp h with rfl | h
    · exact List.mem_cons_self
    · exact List.mem_cons_of_mem _ (ih h)

/-- Reading the string gives the table back exactly when no character that equals
the separator comes right behind an entry without a flag. -/
theorem decode_encode_iff {es : List (C × Bool)} :
    decode sep (encode sep es) = es ↔ es.IsChain fun a b => a.2 = false → b.1 ≠ sep := by
  induction es with
  | nil => exact ⟨fun _ => .nil, fun _ => rfl⟩
  | cons a es ih =>
    obtain ⟨c, flag⟩ := a
    cases flag with
    | true =>
      rw [encode_cons, show encodeEntry sep (c, true) = [c, sep] from rfl, List.cons_append,
        List.singleton_append, decode_flag, List.cons.injEq, ih]
      cases es with
      | nil => simp
      | cons b es => simp [List.isChain_cons_cons]
    | false =>
      rw [encode_cons, show encodeEntry sep (c, false) = [c] from rfl, List.singleton_append]
      cases es with
      | nil => exact ⟨fun _ => .singleton _, fun _ => rfl⟩
      | cons b es =>
        rw [List.isChain_cons_cons]
        by_cases hb : b.1 = sep
        · -- the next character is read as the flag of this one
          have hhead : encode sep (b :: es) = sep :: (encode sep (b :: es)).tail := by
            rw [encode_cons, encodeEntry, hb]
            rfl
          rw [hhead, decode_flag]
          simp [hb]
        · have hhead : (encode sep (b :: es)).head? ≠ some sep := by
            rw [encode_cons, encodeEntry]
            simpa using hb
          rw [decode_noFlag c hhead, List.cons.injEq, ih]
          simp [hb]

/-- The string up to its terminator. -/
def cString (nul : C) (s : List C) : List C := s.takeWhile (· ≠ nul)

theorem cString_eq_self {nul : C} {s : List C} (h : nul ∉ s) : cString nul s = s :=
  List.takeWhile_eq_self_iff.mpr fun _ hc => decide_eq_true fun heq => h (heq ▸ hc)

theorem not_mem_cString (nul : C) (s : List C) : nul ∉ cString nul s := by
  intro h
  have hne := List.mem_takeWhile_imp h
  exact of_decide_eq_true hne rfl

/-- A reader that stops at the terminator gets the table back exactly when, besides,
no character is the terminator. -/
theorem decode_cString_encode_iff {nul : C} (hsep : sep ≠ nul) {es : List (C × Bool)} :
    decode sep (cString nul (encode sep es)) = es ↔
      (∀ e ∈ es, e.1 ≠ nul) ∧ es.IsChain fun a b => a.2 = false → b.1 ≠ sep := by
  by_cases hnul : ∀ e ∈ es, e.1 ≠ nul
  · have hmem : nul ∉ encode sep es := by
      rw [mem_encode]
      rintro (⟨e, he, heq⟩ | ⟨heq, -⟩)
      · exact hnul e he heq
      · exact hsep heq.symm
    rw [cString_eq_self hmem, decode_encode_iff, and_iff_right hnul]
  · refine ⟨fun h => absurd ?_ hnul, fun h => absurd h.1 hnul⟩
    intro e he heq
    rw [← h] at he
    exact not_mem_cString nul _ (heq ▸ mem_of_mem_decode he)

end Brasa.Lib.Optstring
