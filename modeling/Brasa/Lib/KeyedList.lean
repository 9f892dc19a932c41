import Mathlib.Data.List.Nodup
import Mathlib.Data.List.TakeWhile

/-!
# Brasa.Lib.KeyedList

Lists whose elements are found by a key: a linked list seen through the addresses
of its nodes, a table of named handles.

Each operation walks to the **first** element with the key, as a program does.
When the keys are distinct, the operations are the ones on sets of elements:
`modify` is a `map`, `erase` is a `filter`, and `lookup` is membership.
-/

namespace Brasa.Lib.KeyedList

variable {β κ : Type*} [DecidableEq κ] (key : β → κ)

/-- The first element with key `k`. -/
def lookup (k : κ) : List β → Option β
  | [] => none
  | b :: bs => if key b = k then some b else lookup k bs

/-- Change the first element with key `k`; `none` if there is none. -/
def modify (k : κ) (f : β → β) : List β → Option (List β)
  | [] => none
  | b :: bs => if key b = k then some (f b :: bs) else (modify k f bs).map (b :: ·)

/-- Take out the first element with key `k`. -/
def erase (k : κ) : List β → List β
  | [] => []
  | b :: bs => if key b = k then bs else b :: erase k bs

/-- What follows the first element with key `k`: `some none` at the end of the list,
`none` if there is no such element. -/
def next (k : κ) : List β → Option (Option β)
  | [] => none
  | b :: bs => if key b = k then some bs.head? else next k bs

variable {key} {k : κ} {b : β} {bs : List β}

theorem lookup_eq_some (h : lookup key k bs = some b) : b ∈ bs ∧ key b = k := by
  induction bs with
  | nil => cases h
  | cons c bs ih =>
    rw [lookup] at h
    by_cases hc : key c = k
    · rw [if_pos hc, Option.some.injEq] at h
      exact ⟨h ▸ List.mem_cons_self, h ▸ hc⟩
    · rw [if_neg hc] at h
      exact ⟨List.mem_cons_of_mem c (ih h).1, (ih h).2⟩

/-- With distinct keys, an element is found by its key. -/
theorem lookup_of_mem (hnodup : (bs.map key).Nodup) (hb : b ∈ bs) :
    lookup key (key b) bs = some b := by
  induction bs with
  | nil => cases hb
  | cons c bs ih =>
    rw [List.map_cons, List.nodup_cons] at hnodup
    rw [lookup]
    by_cases hc : key c = key b
    · rcases List.mem_cons.mp hb with rfl | hb
      · rw [if_pos rfl]
      · exact absurd (hc ▸ List.mem_map_of_mem hb) hnodup.1
    · rw [if_neg hc]
      rcases List.mem_cons.mp hb with rfl | hb
      · exact absurd rfl hc
      · exact ih hnodup.2 hb

theorem lookup_eq_none : lookup key k bs = none ↔ k ∉ bs.map key := by
  induction bs with
  | nil => simp [lookup]
  | cons c bs ih =>
    rw [lookup, List.map_cons, List.mem_cons, not_or]
    by_cases hc : key c = k
    · simp [hc]
    · rw [if_neg hc, ih]
      exact ⟨fun h => ⟨fun heq => hc heq.symm, h⟩, fun h => h.2⟩

theorem lookup_append_of_mem {cs : List β} (h : k ∈ bs.map key) :
    lookup key k (bs ++ cs) = lookup key k bs := by
  induction bs with
  | nil => cases h
  | cons c bs ih =>
    rw [List.cons_append, lookup, lookup]
    by_cases hc : key c = k
    · rw [if_pos hc, if_pos hc]
    · rw [if_neg hc, if_neg hc]
      exact ih ((List.mem_cons.mp h).resolve_left fun heq => hc heq.symm)

theorem lookup_map {f : β → β} (hf : ∀ b, key (f b) = key b) :
    lookup key k (bs.map f) = (lookup key k bs).map f := by
  induction bs with
  | nil => rfl
  | cons c bs ih =>
    rw [List.map_cons, lookup, lookup, hf]
    by_cases hc : key c = k
    · rw [if_pos hc, if_pos hc, Option.map_some]
    · rw [if_neg hc, if_neg hc, ih]

theorem lookup_filter {p : β → Bool} (hp : ∀ b ∈ bs, key b = k → p b = true) :
    lookup key k (bs.filter p) = lookup key k bs := by
  induction bs with
  | nil => rfl
  | cons c bs ih =>
    have ih := ih fun b hb => hp b (List.mem_cons_of_mem c hb)
    rw [lookup, List.filter_cons]
    by_cases hc : key c = k
    · rw [if_pos (hp c List.mem_cons_self hc), if_pos hc, lookup, if_pos hc]
    · rw [if_neg hc]
      by_cases hpc : p c = true
      · rw [if_pos hpc, lookup, if_neg hc, ih]
      · rw [if_neg hpc, ih]

/-- With distinct keys, changing the first element with key `k` changes the one
element with key `k`. -/
theorem modify_eq_map (hnodup : (bs.map key).Nodup) (hk : k ∈ bs.map key) (f : β → β) :
    modify key k f bs = some (bs.map fun b => if key b = k then f b else b) := by
  induction bs with
  | nil => cases hk
  | cons c bs ih =>
    rw [List.map_cons, List.nodup_cons] at hnodup
    rw [modify, List.map_cons]
    by_cases hc : key c = k
    · rw [if_pos hc, if_pos hc]
      have hrest : bs.map (fun b => if key b = k then f b else b) = bs := by
        refine (List.map_congr_left fun b hb => if_neg fun heq => ?_).trans (List.map_id bs)
        exact hnodup.1 (hc ▸ heq ▸ List.mem_map_of_mem hb)
      rw [hrest]
    · rw [if_neg hc, if_neg hc]
      rw [ih hnodup.2 ((List.mem_cons.mp hk).resolve_left fun heq => hc heq.symm)]
      rfl

theorem map_modify {f : β → β} {cs : List β} (h : modify key k f bs = some cs)
    (hf : ∀ b, key (f b) = key b) : cs.map key = bs.map key := by
  induction bs generalizing cs with
  | nil => cases h
  | cons c bs ih =>
    rw [modify] at h
    by_cases hc : key c = k
    · rw [if_pos hc, Option.some.injEq] at h
      rw [← h, List.map_cons, hf, List.map_cons]
    · rw [if_neg hc, Option.map_eq_some_iff] at h
      obtain ⟨ds, hds, rfl⟩ := h
      rw [List.map_cons, ih hds, List.map_cons]

/-- With distinct keys, erasing the first element with key `k` leaves those with
another key. -/
theorem erase_eq_filter (hnodup : (bs.map key).Nodup) :
    erase key k bs = bs.filter fun b => key b ≠ k := by
  induction bs with
  | nil => rfl
  | cons c bs ih =>
    rw [List.map_cons, List.nodup_cons] at hnodup
    rw [erase, List.filter_cons]
    by_cases hc : key c = k
    · rw [if_pos hc, if_neg (by simp [hc])]
      refine (List.filter_eq_self.mpr fun b hb => ?_).symm
      exact decide_eq_true fun heq => hnodup.1 (hc ▸ heq ▸ List.mem_map_of_mem hb)
    · rw [if_neg hc, if_pos (by simp [hc]), ih hnodup.2]

/-- Erasing takes out what is looked up. -/
theorem perm_erase (h : lookup key k bs = some b) : (b :: erase key k bs).Perm bs := by
  induction bs with
  | nil => cases h
  | cons c bs ih =>
    rw [lookup] at h
    rw [erase]
    by_cases hc : key c = k
    · rw [if_pos hc, Option.some.injEq] at h
      rw [if_pos hc, h]
    · rw [if_neg hc] at h
      rw [if_neg hc]
      exact (List.Perm.swap c b _).trans ((ih h).cons c)

theorem lookup_erase_ne {k' : κ} (hne : k' ≠ k) :
    lookup key k' (erase key k bs) = lookup key k' bs := by
  induction bs with
  | nil => rfl
  | cons c bs ih =>
    rw [erase, lookup]
    by_cases hc : key c = k
    · rw [if_pos hc, if_neg fun heq => hne (heq.symm.trans hc)]
    · rw [if_neg hc, lookup, ih]

/-! ### At a cut of the list -/

variable {pre : List β}

theorem lookup_cut (hpre : key b ∉ pre.map key) (post : List β) :
    lookup key (key b) (pre ++ b :: post) = some b := by
  induction pre with
  | nil => rw [List.nil_append, lookup, if_pos rfl]
  | cons c pre ih =>
    rw [List.map_cons, List.mem_cons, not_or] at hpre
    rw [List.cons_append, lookup, if_neg fun heq => hpre.1 heq.symm, ih hpre.2]

theorem next_cut (hpre : key b ∉ pre.map key) (post : List β) :
    next key (key b) (pre ++ b :: post) = some post.head? := by
  induction pre with
  | nil => rw [List.nil_append, next, if_pos rfl]
  | cons c pre ih =>
    rw [List.map_cons, List.mem_cons, not_or] at hpre
    rw [List.cons_append, next, if_neg fun heq => hpre.1 heq.symm, ih hpre.2]

theorem erase_cut (hpre : key b ∉ pre.map key) (post : List β) :
    erase key (key b) (pre ++ b :: post) = pre ++ post := by
  induction pre with
  | nil => rw [List.nil_append, erase, if_pos rfl, List.nil_append]
  | cons c pre ih =>
    rw [List.map_cons, List.mem_cons, not_or] at hpre
    rw [List.cons_append, erase, if_neg fun heq => hpre.1 heq.symm, ih hpre.2, List.cons_append]

omit [DecidableEq κ] in
/-- With distinct keys, no key before a cut is the one at the cut. -/
theorem not_mem_of_nodup {post : List β} (hnodup : ((pre ++ b :: post).map key).Nodup) :
    key b ∉ pre.map key := by
  rw [List.map_append, List.map_cons, List.nodup_append] at hnodup
  exact fun h => hnodup.2.2 _ h _ List.mem_cons_self rfl

/-! ### Lists of keys, from one key on -/

/-- From the first occurrence of a key on. -/
theorem dropWhile_cut {pre post : List κ} (hnodup : (pre ++ k :: post).Nodup) :
    (pre ++ k :: post).dropWhile (· ≠ k) = k :: post := by
  rw [List.nodup_append] at hnodup
  rw [List.dropWhile_append_of_pos]
  · simp
  · intro a ha
    exact decide_eq_true (hnodup.2.2 a ha k List.mem_cons_self)

omit [DecidableEq κ] in
/-- A key is the last one, or what follows it ends there. -/
theorem getLast?_cut {pre post : List κ} {last : κ}
    (hlast : (pre ++ k :: post).getLast? = some last) :
    (post = [] ∧ k = last) ∨ ∃ following rest, post = following :: rest ∧
      ∀ pre', (pre' ++ following :: rest).getLast? = some last := by
  cases post with
  | nil =>
    rw [List.getLast?_append, List.getLast?_singleton] at hlast
    exact Or.inl ⟨rfl, Option.some.inj hlast⟩
  | cons following rest =>
    refine Or.inr ⟨following, rest, rfl, fun pre' => ?_⟩
    rw [List.getLast?_append, List.getLast?_cons_cons] at hlast
    rw [List.getLast?_append]
    cases htail : (following :: rest).getLast? with
    | none => simp at htail
    | some a =>
      rw [htail] at hlast
      exact hlast

/-- What is at or after `k` stays so when the list grows at its end. -/
theorem dropWhile_append_of_mem {l m : List κ} {t : κ} (h : t ∈ l.dropWhile (· ≠ k)) :
    (l ++ m).dropWhile (· ≠ k) = l.dropWhile (· ≠ k) ++ m := by
  rw [List.dropWhile_append, if_neg]
  intro hempty
  rw [List.isEmpty_iff.mp hempty] at h
  cases h

theorem takeWhile_append_of_mem {l m : List κ} {t : κ} (h : t ∈ l) :
    (l ++ m).takeWhile (· ≠ t) = l.takeWhile (· ≠ t) := by
  induction l with
  | nil => cases h
  | cons a l ih =>
    rw [List.cons_append, List.takeWhile_cons, List.takeWhile_cons]
    by_cases ha : a = t
    · simp [ha]
    · rw [ih ((List.mem_cons.mp h).resolve_left fun heq => ha heq.symm)]

/-- What is at or after `k` stays so when another key is taken out. -/
theorem mem_dropWhile_filter {l : List κ} {t x : κ} (h : t ∈ l.dropWhile (· ≠ k)) (hk : k ≠ x)
    (ht : t ≠ x) : t ∈ (l.filter (· ≠ x)).dropWhile (· ≠ k) := by
  induction l with
  | nil => cases h
  | cons a l ih =>
    rw [List.dropWhile_cons] at h
    by_cases ha : a = k
    · rw [if_neg (by simp [ha])] at h
      rw [List.filter_cons_of_pos (by simp [ha, hk]), List.dropWhile_cons, if_neg (by simp [ha])]
      rcases List.mem_cons.mp h with rfl | h
      · exact List.mem_cons_self
      · exact List.mem_cons_of_mem a (List.mem_filter.mpr ⟨h, decide_eq_true ht⟩)
    · rw [if_pos (by simp [ha])] at h
      rw [List.filter_cons]
      split
      · rw [List.dropWhile_cons, if_pos (by simp [ha])]
        exact ih h
      · exact ih h

theorem takeWhile_filter_length_le {l : List κ} {t x : κ} (ht : t ≠ x) :
    ((l.filter (· ≠ x)).takeWhile (· ≠ t)).length ≤ (l.takeWhile (· ≠ t)).length := by
  induction l with
  | nil => exact Nat.le_refl 0
  | cons a l ih =>
    rw [List.takeWhile_cons]
    by_cases ha : a = t
    · rw [if_neg (by simp [ha]), List.filter_cons_of_pos (by simp [ha, ht]),
        List.takeWhile_cons, if_neg (by simp [ha])]
    · rw [if_pos (by simp [ha]), List.filter_cons]
      split
      · rw [List.takeWhile_cons, if_pos (by simp [ha])]
        exact Nat.succ_le_succ ih
      · exact Nat.le_succ_of_le ih

/-- Taking out a key brings no other key farther from `k`. -/
theorem distance_filter_le {l : List κ} {t x : κ} (ht : t ≠ x) :
    (((l.filter (· ≠ x)).dropWhile (· ≠ k)).takeWhile (· ≠ t)).length ≤
      ((l.dropWhile (· ≠ k)).takeWhile (· ≠ t)).length := by
  induction l with
  | nil => exact Nat.le_refl 0
  | cons a l ih =>
    rw [List.dropWhile_cons]
    by_cases ha : a = k
    · rw [if_neg (by simp [ha])]
      by_cases hx : a = x
      · have hgone : ((a :: l).filter (· ≠ x)).dropWhile (· ≠ k) = [] := by
          rw [List.dropWhile_eq_nil_iff]
          intro b hb
          rw [← ha, hx]
          exact (List.mem_filter.mp hb).2
        rw [hgone]
        exact Nat.zero_le _
      · have hkept : ((a :: l).filter (· ≠ x)).dropWhile (· ≠ k) = (a :: l).filter (· ≠ x) := by
          rw [List.filter_cons_of_pos (by simp [hx]), List.dropWhile_cons, if_neg (by simp [ha])]
        rw [hkept]
        exact takeWhile_filter_length_le ht
    · rw [if_pos (by simp [ha]), List.filter_cons]
      split
      · rw [List.dropWhile_cons, if_pos (by simp [ha])]
        exact ih
      · exact ih

end Brasa.Lib.KeyedList
