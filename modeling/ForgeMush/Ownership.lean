import ForgeMush.Runs
import Mathlib.Data.Finset.Card
import Mathlib.Logic.Relation

/-!
Objects that are counted by their owners, and freed when there are none.

Some are owned from outside, by the roots, and a live object owns others. What is live when
nothing is left to be freed is what the roots hold, if no object is among its own owners.
-/

namespace ForgeMush.Ownership

open Runs

section

variable {ι : Type*} (roots : Set ι) (owns : ι → ι → Prop)

/-- The roots own the object, or own one that holds it. -/
def Held (x : ι) : Prop := ∃ r ∈ roots, Relation.ReflTransGen owns r x

/-- A live object whose count is zero. -/
structure Due (live : Finset ι) (x : ι) : Prop where
  mem : x ∈ live
  unrooted : x ∉ roots
  unowned : ∀ y ∈ live, ¬ owns y x

/-- Nothing is left to be freed. -/
def Settled (live : Finset ι) : Prop := ∀ x, ¬ Due roots owns live x

/-- Nothing that is held has been freed. -/
def Safe (live : Finset ι) : Prop := ∀ x, Held roots owns x → x ∈ live

def Free [DecidableEq ι] (live : Finset ι) (x : ι) (live' : Finset ι) : Prop :=
  Due roots owns live x ∧ live' = live.erase x

end

variable {ι : Type*} {roots roots' : Set ι} {owns owns' : ι → ι → Prop} {live live' : Finset ι}
  {x : ι}

lemma Held.cases (h : Held roots owns x) : x ∈ roots ∨ ∃ y, Held roots owns y ∧ owns y x := by
  obtain ⟨r, hr, hpath⟩ := h
  rcases Relation.ReflTransGen.cases_tail hpath with rfl | ⟨y, hpath, hyx⟩
  · exact Or.inl hr
  · exact Or.inr ⟨y, ⟨r, hr, hpath⟩, hyx⟩

lemma Held.owned (h : Held roots owns x) {y : ι} (hxy : owns x y) : Held roots owns y := by
  obtain ⟨r, hr, hpath⟩ := h
  exact ⟨r, hr, hpath.tail hxy⟩

lemma Held.induct {P : ι → Prop} (h : Held roots owns x) (hroot : ∀ r ∈ roots, P r)
    (howned : ∀ x y, P x → owns x y → P y) : P x := by
  obtain ⟨r, hr, hpath⟩ := h
  induction hpath with
  | refl => exact hroot r hr
  | tail _ hyz ih => exact howned _ _ ih hyz

/-- What is due is not held, since its owners would be live. -/
lemma Due.not_held (h : Due roots owns live x) (hsafe : Safe roots owns live) :
    ¬ Held roots owns x := by
  intro hheld
  rcases hheld.cases with hx | ⟨y, hy, hyx⟩
  · exact h.unrooted hx
  · exact h.unowned y (hsafe y hy) hyx

lemma Safe.free [DecidableEq ι] (h : Safe roots owns live) (hfree : Free roots owns live x live') :
    Safe roots owns live' := by
  obtain ⟨hdue, rfl⟩ := hfree
  intro y hy
  refine Finset.mem_erase.mpr ⟨?_, h y hy⟩
  rintro rfl
  exact hdue.not_held h hy

/-- **New objects** that own only each other, and roots that let go of some. -/
lemma Safe.grow [DecidableEq ι] {new : Finset ι} (h : Safe roots owns live)
    (hroots : ∀ r ∈ roots', r ∈ roots ∨ r ∈ new) (hold : ∀ x ∉ new, ∀ y, owns' x y → owns x y)
    (hnew : ∀ x ∈ new, ∀ y, owns' x y → y ∈ new) : Safe roots' owns' (live ∪ new) := by
  have hheld : ∀ x, Held roots' owns' x → Held roots owns x ∨ x ∈ new := by
    intro x hx
    refine hx.induct (fun r hr => (hroots r hr).imp_left fun h => ⟨r, h, .refl⟩) ?_
    intro y z hy hyz
    by_cases hmem : y ∈ new
    · exact Or.inr (hnew y hmem z hyz)
    · exact Or.inl ((hy.resolve_right hmem).owned (hold y hmem z hyz))
  intro x hx
  rw [Finset.mem_union]
  exact (hheld x hx).imp_left (h x)

/-- By induction on the owners: one of those of a live object is live, if it is not a root. -/
lemma Settled.held (h : Settled roots owns live) (howns : WellFounded owns) (hx : x ∈ live) :
    Held roots owns x := by
  induction x using howns.induction with
  | _ x ih =>
      by_cases hroot : x ∈ roots
      · exact ⟨x, hroot, .refl⟩
      · have howned : ∃ y ∈ live, owns y x := by
          by_contra hnone
          push Not at hnone
          exact h x ⟨hx, hroot, hnone⟩
        obtain ⟨y, hy, hyx⟩ := howned
        exact (ih y hyx hy).owned hyx

/-- **Counting is exact** where no object is among its own owners. -/
theorem Settled.mem_iff (h : Settled roots owns live) (howns : WellFounded owns)
    (hsafe : Safe roots owns live) : x ∈ live ↔ Held roots owns x :=
  ⟨h.held howns, hsafe x⟩

lemma Free.card [DecidableEq ι] (h : Free roots owns live x live') :
    1 + live'.card = live.card := by
  obtain ⟨hdue, rfl⟩ := h
  rw [Nat.add_comm, Finset.card_erase_add_one hdue.mem]

/-- **Freeing ends**: each time there is one object less. -/
theorem exists_settled [DecidableEq ι] (roots : Set ι) (owns : ι → ι → Prop) (live : Finset ι) :
    ∃ tr, Run (Free roots owns) live tr ∧ Settled roots owns (final live tr) := by
  induction live using Finset.strongInduction with
  | _ live ih =>
      by_cases hsettled : Settled roots owns live
      · exact ⟨[], .nil live, hsettled⟩
      · obtain ⟨x, hdue⟩ := not_forall_not.mp hsettled
        obtain ⟨tr, hrun, hfinal⟩ := ih (live.erase x) (Finset.erase_ssubset hdue.mem)
        exact ⟨(x, live.erase x) :: tr, .cons ⟨hdue, rfl⟩ hrun, hfinal⟩

end ForgeMush.Ownership
