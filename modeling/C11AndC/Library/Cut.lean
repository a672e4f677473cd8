import Mathlib.Combinatorics.SimpleGraph.Connectivity.Connected
import Mathlib.SetTheory.Cardinal.Finite

namespace C11AndC.Library

open Relation

variable {α : Type} {E : α → α → Prop} {P Q : α → Prop} {x y z u : α}

/-- The way from one point to another by edges between points of a set. -/
def ReachIn (E : α → α → Prop) (P : α → Prop) : α → α → Prop := ReflTransGen fun a b => E a b ∧ P a ∧ P b

theorem reachIn_mono (hPQ : ∀ a, P a → Q a) (h : ReachIn E P x y) : ReachIn E Q x y :=
  ReflTransGen.mono (fun _ _ hab => ⟨hab.1, hPQ _ hab.2.1, hPQ _ hab.2.2⟩) _ _ h

theorem reachIn_edge (h : E x y) (hx : P x) (hy : P y) : ReachIn E P x y := .single ⟨h, hx, hy⟩

theorem reachIn_trans (h : ReachIn E P x y) (h' : ReachIn E P y z) : ReachIn E P x z := ReflTransGen.trans h h'

theorem reachIn_forget (h : ReachIn E P x y) : ReflTransGen E x y :=
  ReflTransGen.mono (fun _ _ hab => hab.1) _ _ h

theorem reachIn_symm (hE : ∀ a b, E a b → E b a) (h : ReachIn E P x y) : ReachIn E P y x := by
  induction h with
  | refl => exact .refl
  | tail _ hbc ih => exact .head ⟨hE _ _ hbc.1, hbc.2.2, hbc.2.1⟩ ih

/-- No way leaves a closed set. -/
theorem reachIn_closed (hQ : ∀ a b, Q a → E a b → P b → Q b) (hx : Q x) (h : ReachIn E P x y) : Q y := by
  induction h with
  | refl => exact hx
  | tail _ hbc ih => exact hQ _ _ ih hbc.1 hbc.2.2

/-- Without `u`, some points are apart that are connected through it. -/
def Separates (E : α → α → Prop) (u : α) : Prop :=
  ∃ x y, x ≠ u ∧ y ≠ u ∧ ReflTransGen E x y ∧ ¬ ReachIn E (· ≠ u) x y

/-- A way through `u` can go around it if the neighbours of `u` are connected without it. -/
theorem not_separates (hE : ∀ a b, E a b → E b a)
    (h : ∀ a b, E u a → E u b → a ≠ u → b ≠ u → ReachIn E (· ≠ u) a b) : ¬ Separates E u := by
  rintro ⟨x, y, hx, hy, hxy, hnot⟩
  have haround : ∀ z, ReflTransGen E x z → (z ≠ u → ReachIn E (· ≠ u) x z) ∧
      (z = u → ∃ a, a ≠ u ∧ E u a ∧ ReachIn E (· ≠ u) x a) := by
    intro z hz
    induction hz with
    | refl => exact ⟨fun _ => .refl, fun he => absurd he hx⟩
    | @tail b c _ hbc ih =>
      by_cases hb : b = u
      · obtain ⟨a, ha, hua, hxa⟩ := ih.2 hb
        exact ⟨fun hc => reachIn_trans hxa (h a c hua (hb ▸ hbc) ha hc), fun _ => ⟨a, ha, hua, hxa⟩⟩
      · have hxb := ih.1 hb
        refine ⟨fun hc => reachIn_trans hxb (reachIn_edge hbc hb hc), fun hc => ⟨b, hb, ?_, hxb⟩⟩
        exact hE b u (hc ▸ hbc)
  exact hnot ((haround y hxy).1 hy)

section Components

variable (hE : ∀ a b, E a b → E b a)
include hE

theorem reachable_iff : (SimpleGraph.fromRel E).Reachable x y ↔ ReflTransGen E x y := by
  rw [SimpleGraph.reachable_iff_reflTransGen]
  constructor
  · exact ReflTransGen.mono (fun a b hab => hab.2.elim id (hE b a)) _ _
  · intro h
    induction h with
    | refl => exact .refl
    | @tail b c _ hbc ih =>
      by_cases he : b = c
      · exact he ▸ ih
      · exact ih.tail ⟨he, .inl hbc⟩

theorem reachable_induce_iff (hx : x ≠ u) (hy : y ≠ u) :
    ((SimpleGraph.fromRel E).induce {u}ᶜ).Reachable ⟨x, hx⟩ ⟨y, hy⟩ ↔ ReachIn E (· ≠ u) x y := by
  rw [SimpleGraph.reachable_iff_reflTransGen]
  constructor
  · intro h
    refine ReflTransGen.lift Subtype.val (fun a b hab => ?_) _ _ h
    exact ⟨hab.2.elim id (hE b a), a.2, b.2⟩
  · intro h
    induction h with
    | refl => exact .refl
    | @tail b c _ hbc ih =>
      have hb := ih hbc.2.1
      by_cases he : b = c
      · subst he
        exact hb
      · exact hb.tail ⟨he, .inl hbc.1⟩

/-- A point separates others exactly if there are more components without it. -/
theorem separates_iff [Finite α] : Separates E u ↔
    Nat.card (SimpleGraph.fromRel E).ConnectedComponent <
      Nat.card ((SimpleGraph.fromRel E).induce {u}ᶜ).ConnectedComponent := by
  let f : ((SimpleGraph.fromRel E).induce {u}ᶜ).ConnectedComponent → (SimpleGraph.fromRel E).ConnectedComponent :=
    SimpleGraph.ConnectedComponent.map (SimpleGraph.Embedding.induce {u}ᶜ).toHom
  constructor
  · intro h
    obtain ⟨a, hua, ha⟩ : ∃ a, E u a ∧ a ≠ u := by
      by_contra hnone
      exact not_separates hE (fun a _ hua _ ha _ => absurd ⟨a, hua, ha⟩ hnone) h
    have hsurj : Function.Surjective f := by
      intro c
      induction c using SimpleGraph.ConnectedComponent.ind with
      | _ v =>
      by_cases hv : v = u
      · refine ⟨SimpleGraph.connectedComponentMk _ ⟨a, ha⟩, SimpleGraph.ConnectedComponent.sound ?_⟩
        exact (reachable_iff hE).mpr (.single (hv ▸ hE u a hua))
      · exact ⟨SimpleGraph.connectedComponentMk _ ⟨v, hv⟩, rfl⟩
    obtain ⟨x, y, hx, hy, hxy, hnot⟩ := h
    by_contra hle
    have hinj := (hsurj.bijective_of_nat_card_le (not_lt.mp hle)).injective
    have heq : f (SimpleGraph.connectedComponentMk _ ⟨x, hx⟩) = f (SimpleGraph.connectedComponentMk _ ⟨y, hy⟩) :=
      SimpleGraph.ConnectedComponent.sound ((reachable_iff hE).mpr hxy)
    exact hnot ((reachable_induce_iff hE hx hy).mp (SimpleGraph.ConnectedComponent.exact (hinj heq)))
  · intro h
    by_contra hnot
    have hinj : Function.Injective f := by
      intro c c'
      induction c, c' using SimpleGraph.ConnectedComponent.ind₂ with
      | _ v w =>
      intro heq
      refine SimpleGraph.ConnectedComponent.sound ((reachable_induce_iff hE v.2 w.2).mpr ?_)
      by_contra hne
      exact hnot ⟨v, w, v.2, w.2, (reachable_iff hE).mp (SimpleGraph.ConnectedComponent.exact heq), hne⟩
    exact absurd (Nat.card_le_card_of_injective f hinj) (not_le.mpr h)

end Components

end C11AndC.Library
