import Mathlib.Data.Fintype.EquivFin
import Mathlib.Logic.Relation

/-!
# Recursion along calls

A recursive function whose calls form a graph on its arguments, run with a bound on the
depth: `good k n` says that the call for `k` goes well within depth `n`. It does exactly
if no call it leads to is bad in itself and the calls it leads to never come back to one
of them (`Descent.exists_good_iff`).
-/

namespace Microchain.Lib

universe u

open Relation

/-- What holds of everything that is reached holds here, and of everything that is reached
from the next. -/
theorem forall_reflTransGen_iff {κ : Type u} {r : κ → κ → Prop} {p : κ → Prop} {a : κ} :
    (∀ b, ReflTransGen r a b → p b) ↔ p a ∧ ∀ c, r a c → ∀ b, ReflTransGen r c b → p b := by
  constructor
  · intro h
    exact ⟨h a .refl, fun c hac b hcb => h b (.head hac hcb)⟩
  · rintro ⟨ha, hnext⟩ b hab
    obtain rfl | ⟨c, hac, hcb⟩ := ReflTransGen.cases_head hab
    · exact ha
    · exact hnext c hac b hcb

/-- What a call needs of the calls it makes. -/
structure Descent {κ : Type u} (bad : κ → Prop) (calls : κ → κ → Prop) (good : κ → ℕ → Prop) :
    Prop where
  zero : ∀ k, ¬ good k 0
  down : ∀ {k n}, good k (n + 1) → ¬ bad k ∧ ∀ k', calls k k' → good k' n
  up : ∀ {k}, ¬ bad k → (∀ k', calls k k' → ∃ n, good k' n) → ∃ n, good k n

/-- What a call leads to is not bad in itself, and leads not back to itself. -/
def Grounded {κ : Type u} (bad : κ → Prop) (calls : κ → κ → Prop) (k : κ) : Prop :=
  ∀ k', ReflTransGen calls k k' → ¬ bad k' ∧ ¬ TransGen calls k' k'

/-- No chain from an accessible element comes back to it. -/
theorem not_transGen_self_of_acc {κ : Type u} {calls : κ → κ → Prop} {k : κ}
    (h : Acc (fun k' k => calls k k') k) : ¬ TransGen calls k k := by
  induction h with
  | intro k _ ih =>
    intro hloop
    obtain ⟨k', hcall, hback⟩ := TransGen.head'_iff.mp hloop
    exact ih k' hcall (TransGen.tail' hback hcall)

namespace Descent

variable {κ : Type u} {bad : κ → Prop} {calls : κ → κ → Prop} {good : κ → ℕ → Prop}

theorem acc (h : Descent bad calls good) :
    ∀ {n : ℕ} {k : κ}, good k n → Acc (fun k' k => calls k k') k
  | 0, k, hk => absurd hk (h.zero k)
  | _ + 1, _, hk => ⟨_, fun k' hcall => h.acc ((h.down hk).2 k' hcall)⟩

theorem of_calls (h : Descent bad calls good) {k k' : κ} (hk : ∃ n, good k n) (hcall : calls k k') :
    ∃ n, good k' n := by
  obtain ⟨n, hn⟩ := hk
  cases n with
  | zero => exact absurd hn (h.zero k)
  | succ n => exact ⟨n, (h.down hn).2 k' hcall⟩

theorem not_bad (h : Descent bad calls good) {k : κ} (hk : ∃ n, good k n) : ¬ bad k := by
  obtain ⟨n, hn⟩ := hk
  cases n with
  | zero => exact absurd hn (h.zero k)
  | succ n => exact (h.down hn).1

theorem grounded (h : Descent bad calls good) {k : κ} (hk : ∃ n, good k n) :
    Grounded bad calls k := by
  intro k' hreach
  have hk' : ∃ n, good k' n := by
    induction hreach with
    | refl => exact hk
    | tail _ hcall ih => exact h.of_calls ih hcall
  obtain ⟨n, hn⟩ := hk'
  exact ⟨h.not_bad ⟨n, hn⟩, not_transGen_self_of_acc (h.acc hn)⟩

/-- Among finitely many arguments, chains that never come back end. -/
theorem exists_good_of_grounded [Finite κ] (h : Descent bad calls good) {k : κ}
    (hk : Grounded bad calls k) : ∃ n, good k n := by
  -- the arguments that are reached, each before those it leads to
  let led : {k' // ReflTransGen calls k k'} → {k' // ReflTransGen calls k k'} → Prop :=
    fun b a => TransGen calls a.1 b.1
  have htrans : IsTrans _ led := ⟨fun _ _ _ hab hbc => hbc.trans hab⟩
  have hirrefl : Std.Irrefl led := ⟨fun a => (hk a.1 a.2).2⟩
  have hwf : WellFounded led := Finite.wellFounded_of_trans_of_irrefl led
  have hall : ∀ a : {k' // ReflTransGen calls k k'}, ∃ n, good a.1 n := by
    intro a
    induction a using hwf.induction with
    | _ a ih =>
      refine h.up (hk a.1 a.2).1 fun k' hcall => ?_
      exact ih ⟨k', a.2.tail hcall⟩ (TransGen.single hcall)
  exact hall ⟨k, .refl⟩

theorem exists_good_iff [Finite κ] (h : Descent bad calls good) {k : κ} :
    (∃ n, good k n) ↔ Grounded bad calls k :=
  ⟨h.grounded, h.exists_good_of_grounded⟩

end Descent

end Microchain.Lib
