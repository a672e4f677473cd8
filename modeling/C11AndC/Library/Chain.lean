import C11AndC.Library.Memory

namespace C11AndC.Library

variable {α : Type} {m m' : Memory α} {next : α → Nat} {p q : Nat} {as bs : List Nat}

/-- From `p`, following `next` visits exactly the records at `as` and ends in null. -/
def Chain (m : Memory α) (next : α → Nat) : Nat → List Nat → Prop
  | p, [] => p = 0
  | p, a :: as => p = a ∧ ∃ v, m.cell a = some v ∧ Chain m next (next v) as

theorem chain_congr (h : ∀ a ∈ as, m'.cell a = m.cell a) (hc : Chain m next p as) :
    Chain m' next p as := by
  induction as generalizing p with
  | nil => exact hc
  | cons a as ih =>
    obtain ⟨rfl, v, hv, hc⟩ := hc
    refine ⟨rfl, v, ?_, ih (fun b hb => h b (by simp [hb])) hc⟩
    rw [h p (by simp), hv]

theorem cell_of_mem_chain {a : Nat} (hc : Chain m next p as) (ha : a ∈ as) :
    ∃ v, m.cell a = some v := by
  induction as generalizing p with
  | nil => simp at ha
  | cons b as ih =>
    obtain ⟨rfl, v, hv, hc⟩ := hc
    rcases List.mem_cons.mp ha with rfl | ha
    · exact ⟨v, hv⟩
    · exact ih hc ha

theorem chain_unique (ha : Chain m next p as) (hb : Chain m next p bs) : as = bs := by
  induction as generalizing p bs with
  | nil =>
    cases bs with
    | nil => rfl
    | cons b bs =>
      obtain ⟨rfl, v, hv, -⟩ := hb
      exact absurd ha (Memory.ne_zero_of_cell hv)
  | cons a as ih =>
    obtain ⟨rfl, v, hv, ha⟩ := ha
    cases bs with
    | nil => exact absurd hb (Memory.ne_zero_of_cell hv)
    | cons b bs =>
      obtain ⟨rfl, w, hw, hb⟩ := hb
      rw [hv] at hw
      cases hw
      rw [ih ha hb]

theorem chain_of_append {a : Nat} (hc : Chain m next p (as ++ a :: bs)) :
    Chain m next a (a :: bs) := by
  induction as generalizing p with
  | nil =>
    obtain ⟨rfl, v, hv, hc⟩ := hc
    exact ⟨rfl, v, hv, hc⟩
  | cons b as ih =>
    obtain ⟨-, v, -, hc⟩ := hc
    exact ih hc

/-- A chain that ends in null never passes the same record twice. -/
theorem chain_nodup (hc : Chain m next p as) : as.Nodup := by
  induction as generalizing p with
  | nil => exact List.nodup_nil
  | cons a as ih =>
    obtain ⟨rfl, v, hv, ht⟩ := hc
    have ha : Chain m next p (p :: as) := ⟨rfl, v, hv, ht⟩
    refine List.nodup_cons.mpr ⟨fun hm => ?_, ih ht⟩
    obtain ⟨xs, ys, rfl⟩ := List.append_of_mem hm
    have hl := congrArg List.length (chain_unique ha (chain_of_append ht))
    simp at hl
    omega

/-- Linking a new last record behind the old one. -/
theorem chain_snoc {l a : Nat} {f : α → α} {v : α} (hc : Chain m next p (as ++ [l]))
    (hf : ∀ w, next (f w) = a) (ha : m.cell a = some v) (hv : next v = 0) (hn : a ∉ as ++ [l]) :
    Chain (m.modify l f) next p (as ++ [l, a]) := by
  induction as generalizing p with
  | nil =>
    obtain ⟨rfl, w, hw, -⟩ := hc
    have hne : a ≠ p := fun h => hn (by simp [h])
    exact ⟨rfl, f w, by simp [hw], hf w, v, by simp [hne, ha], hv⟩
  | cons b as ih =>
    have hnd := chain_nodup hc
    obtain ⟨rfl, w, hw, hc⟩ := hc
    have hne : p ≠ l := by
      rintro rfl
      simp at hnd
    exact ⟨rfl, w, by simp [hne, hw], ih hc (fun h => hn (List.mem_cons_of_mem p h))⟩

theorem chain_head (hc : Chain m next p as) : as.head? = if p = 0 then none else some p := by
  cases as with
  | nil =>
    cases hc
    rfl
  | cons a as =>
    obtain ⟨rfl, v, hv, -⟩ := hc
    simp [Memory.ne_zero_of_cell hv]

end C11AndC.Library
