import Mathlib.Algebra.Order.Floor.Div

/-!
# Brasa.Lib.Loop

A loop whose body either **goes on** from another state or ends with a result, run
for a bounded number of rounds, and two rules about its length. Both are about a
variant, a number that is 0 only where the loop ends:

* `loop_bounded`: a variant that falls by at least `k` a round bounds the rounds;
* `loop_exact`: a variant that falls by exactly `k` a round, and is 0 everywhere the
  loop ends, determines them.

The rules ask for this only in the states that the loop itself goes through (`Goes`).
-/

namespace Brasa.Lib.Loop

variable {σ τ : Type*} {body : σ → σ ⊕ τ} {s s' s'' : σ} {n k m fuel : ℕ} {v : σ → ℕ}

/-- The loop: how many times it went on, and its result. -/
def loop (body : σ → σ ⊕ τ) : ℕ → σ → Option (ℕ × τ)
  | 0, _ => none
  | fuel + 1, s =>
    match body s with
    | .inl s' => (loop body fuel s').map fun r => (r.1 + 1, r.2)
    | .inr out => some (0, out)

/-- The loop comes to `s'` by going on `n` times from `s`. -/
inductive Goes (body : σ → σ ⊕ τ) (s : σ) : ℕ → σ → Prop
  | start : Goes body s 0 s
  | next {n : ℕ} {s' s'' : σ} : Goes body s n s' → body s' = .inl s'' → Goes body s (n + 1) s''

theorem Goes.cons (h : body s = .inl s') (hgoes : Goes body s' n s'') :
    Goes body s (n + 1) s'' := by
  induction hgoes with
  | start => exact .next .start h
  | next _ hlast ih => exact .next ih hlast

theorem loop_next (h : body s = .inl s') :
    loop body (fuel + 1) s = (loop body fuel s').map fun r => (r.1 + 1, r.2) := by
  rw [loop, h]

theorem loop_end {out : τ} (h : body s = .inr out) : loop body (fuel + 1) s = some (0, out) := by
  rw [loop, h]

/-- A loop that ends within some rounds does the same with more of them. -/
theorem loop_mono {r : ℕ × τ} {fuel' : ℕ} (h : loop body fuel s = some r) (hle : fuel ≤ fuel') :
    loop body fuel' s = some r := by
  induction fuel generalizing s r fuel' with
  | zero => cases h
  | succ fuel ih =>
    obtain ⟨fuel', rfl⟩ : ∃ m, fuel' = m + 1 := ⟨fuel' - 1, by omega⟩
    cases hbody : body s with
    | inr out => rw [loop_end hbody] at h ⊢; exact h
    | inl s' =>
      rw [loop_next hbody, Option.map_eq_some_iff] at h ⊢
      obtain ⟨r', hr', hr⟩ := h
      exact ⟨r', ih hr' (by omega), hr⟩

/-- Where a loop that ended has been. -/
theorem goes_of_loop {out : τ} (h : loop body fuel s = some (n, out)) :
    ∃ s', Goes body s n s' ∧ body s' = .inr out := by
  induction fuel generalizing s n with
  | zero => cases h
  | succ fuel ih =>
    cases hbody : body s with
    | inr out' =>
      rw [loop_end hbody] at h
      cases h
      exact ⟨s, .start, hbody⟩
    | inl s' =>
      rw [loop_next hbody, Option.map_eq_some_iff] at h
      obtain ⟨⟨n', out'⟩, hloop, h⟩ := h
      cases h
      obtain ⟨s'', hgoes, hend⟩ := ih hloop
      exact ⟨s'', .cons hbody hgoes, hend⟩

/-- **Bound rule.** A loop whose variant falls by at least `k` a round goes on at most
`m` times if the variant is at most `m * k` at first. -/
theorem loop_bounded
    (hend : ∀ n s', Goes body s n s' → v s' = 0 → ∃ out, body s' = .inr out)
    (hnext : ∀ n s' s'', Goes body s n s' → body s' = .inl s'' → v s'' ≤ v s' - k)
    (h : v s ≤ m * k) : ∃ n out, loop body (m + 1) s = some (n, out) ∧ n ≤ m := by
  induction m generalizing s with
  | zero =>
    obtain ⟨out, hout⟩ := hend 0 s .start (by omega)
    exact ⟨0, out, loop_end hout, Nat.le_refl 0⟩
  | succ m ih =>
    cases hbody : body s with
    | inr out => exact ⟨0, out, loop_end hbody, Nat.zero_le _⟩
    | inl s' =>
      have hfall := hnext 0 s s' .start hbody
      rw [Nat.succ_mul] at h
      obtain ⟨n, out, hloop, hn⟩ := ih
        (fun n s'' hgoes => hend (n + 1) s'' (.cons hbody hgoes))
        (fun n s₁ s₂ hgoes => hnext (n + 1) s₁ s₂ (.cons hbody hgoes)) (by omega)
      exact ⟨n + 1, out, by rw [loop_next hbody, hloop]; rfl, by omega⟩

/-- Taking `k` off once leaves one time less. -/
theorem ceilDiv_sub {v : ℕ} (hk : 0 < k) (hv : v ≠ 0) : v ⌈/⌉ k = (v - k) ⌈/⌉ k + 1 := by
  rw [Nat.ceilDiv_eq_add_pred_div, Nat.ceilDiv_eq_add_pred_div]
  by_cases hle : k ≤ v
  · rw [← Nat.add_div_right _ hk]
    congr 1
    omega
  · have hrest : v - k + k - 1 < k := by omega
    rw [Nat.div_eq_of_lt hrest]
    exact Nat.div_eq_of_lt_le (by omega) (by omega)

theorem le_ceilDiv_mul {v : ℕ} (hk : 0 < k) : v ≤ v ⌈/⌉ k * k := by
  rw [Nat.mul_comm]
  exact (ceilDiv_le_iff_le_mul hk).mp (Nat.le_refl _)

theorem ceilDiv_mul_lt {v : ℕ} (hk : 0 < k) : v ⌈/⌉ k * k < v + k := by
  rw [Nat.ceilDiv_eq_add_pred_div]
  have hle := Nat.div_mul_le_self (v + k - 1) k
  omega

/-- **Exact rule.** A loop that ends just where its variant is 0, and whose variant falls
by `k` a round, goes on as often as `k` has to be taken off. -/
theorem loop_exact (hk : 0 < k)
    (hend : ∀ n s', Goes body s n s' → (v s' = 0 ↔ ∃ out, body s' = .inr out))
    (hnext : ∀ n s' s'', Goes body s n s' → body s' = .inl s'' → v s'' = v s' - k) :
    ∃ out, loop body (v s ⌈/⌉ k + 1) s = some (v s ⌈/⌉ k, out) := by
  obtain ⟨m, hm⟩ : ∃ m, m = v s ⌈/⌉ k := ⟨_, rfl⟩
  induction m generalizing s with
  | zero =>
    have hzero : v s = 0 := by simpa using (ceilDiv_le_iff_le_mul hk).mp hm.ge
    obtain ⟨out, hout⟩ := (hend 0 s .start).mp hzero
    exact ⟨out, by rw [← hm, loop_end hout]⟩
  | succ m ih =>
    have hpos : v s ≠ 0 := by
      intro hzero
      rw [hzero, zero_ceilDiv] at hm
      cases hm
    cases hbody : body s with
    | inr out => exact absurd ((hend 0 s .start).mpr ⟨out, hbody⟩) hpos
    | inl s' =>
      have hrest : m = v s' ⌈/⌉ k := by
        rw [ceilDiv_sub hk hpos] at hm
        rw [hnext 0 s s' .start hbody, Nat.succ.inj hm]
      obtain ⟨out, hloop⟩ := ih
        (fun n s'' hgoes => hend (n + 1) s'' (.cons hbody hgoes))
        (fun n s₁ s₂ hgoes => hnext (n + 1) s₁ s₂ (.cons hbody hgoes)) hrest
      exact ⟨out, by rw [← hm, loop_next hbody, hrest, hloop]; rfl⟩

end Brasa.Lib.Loop
