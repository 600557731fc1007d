import Mathlib.Data.List.Basic

/-!
# Replicas of a chain

A copy of a chain that somebody else keeps up to date, by telling it what to put and
what to cut. What is told is under way for a while, so both sides reckon with the replica
after it (`Replica.run`). The first `final` elements of a replica never change.

- `Takes`: updates that a replica can take one after another.
- `Follows`: what is final in a replica is final in the chain that it copies.
- `Agrees`: how far a replica agrees with the chain, from where it can be brought up to it.
-/

namespace Microchain.Lib

universe u

/-- A copy of a chain, of which the first `final` elements stay. -/
structure Replica (β : Type u) where
  chain : List β
  final : ℕ

/-- What a replica is told. -/
inductive Update (β : Type u) where
  /-- The element at a position, in place of everything from there on; so many elements
  are final then. -/
  | put (elem : β) (pos settled : ℕ)
  /-- The length. -/
  | cut (length : ℕ)
  /-- How many elements are final. -/
  | settle (count : ℕ)

namespace Replica

variable {β : Type u} {R R' T T' : Replica β} {P Q : Replica β → Prop}

def apply (R : Replica β) : Update β → Replica β
  | .put elem pos settled => ⟨R.chain.take pos ++ [elem], max R.final settled⟩
  | .cut length => ⟨R.chain.take length, R.final⟩
  | .settle count => ⟨R.chain, max R.final count⟩

/-- An update that changes something and nothing that is final. -/
def Accepts (R : Replica β) : Update β → Prop
  | .put elem pos settled => R.final ≤ pos ∧ pos ≤ R.chain.length ∧
      R.chain[pos]? ≠ some elem ∧ settled ≤ pos + 1
  | .cut length => R.final ≤ length ∧ length < R.chain.length
  | .settle count => count ≤ R.chain.length

/-- The replica after some updates. -/
def run (R : Replica β) (updates : List (Update β)) : Replica β := updates.foldl apply R

@[simp] theorem run_nil (R : Replica β) : R.run [] = R := rfl

@[simp] theorem run_cons (R : Replica β) (u : Update β) (us : List (Update β)) :
    R.run (u :: us) = (R.apply u).run us := rfl

theorem run_append (R : Replica β) (us vs : List (Update β)) :
    R.run (us ++ vs) = (R.run us).run vs := List.foldl_append

/-! ## Updates one after another -/

/-- The replica can take the updates in their order, and all it goes through is `P`. -/
def Takes (P : Replica β → Prop) : Replica β → List (Update β) → Prop
  | R, [] => P R
  | R, u :: us => P R ∧ R.Accepts u ∧ Takes P (R.apply u) us

namespace Takes

variable {us vs : List (Update β)}

theorem here (h : Takes P R us) : P R := by
  cases us with
  | nil => exact h
  | cons u us => exact h.1

theorem mono (h : Takes P R us) (hPQ : ∀ R, P R → Q R) : Takes Q R us := by
  induction us generalizing R with
  | nil => exact hPQ R h
  | cons u us ih => exact ⟨hPQ R h.1, h.2.1, ih h.2.2⟩

theorem last (h : Takes P R us) : P (R.run us) := by
  induction us generalizing R with
  | nil => exact h
  | cons u us ih => exact ih h.2.2

end Takes

theorem takes_append {us vs : List (Update β)} :
    Takes P R (us ++ vs) ↔ Takes P R us ∧ Takes P (R.run us) vs := by
  induction us generalizing R with
  | nil => exact ⟨fun h => ⟨h.here, h⟩, fun h => h.2⟩
  | cons u us ih =>
    show P R ∧ R.Accepts u ∧ Takes P (R.apply u) (us ++ vs) ↔
      (P R ∧ R.Accepts u ∧ Takes P (R.apply u) us) ∧ Takes P ((R.apply u).run us) vs
    rw [ih, and_assoc, and_assoc]

/-- What is final is there. -/
def Sound (R : Replica β) : Prop := R.final ≤ R.chain.length

theorem Sound.apply (h : R.Sound) {u : Update β} (haccepts : R.Accepts u) : (R.apply u).Sound := by
  unfold Sound at h ⊢
  cases u with
  | put elem pos settled =>
    obtain ⟨hpos, hlen, -, hsettled⟩ := haccepts
    simp only [Replica.apply, List.length_append, List.length_take, List.length_singleton]
    omega
  | cut length =>
    obtain ⟨hfinal, hlen⟩ := haccepts
    simp only [Replica.apply, List.length_take]
    omega
  | settle count =>
    have hcount : count ≤ R.chain.length := haccepts
    simp only [Replica.apply]
    omega

theorem Takes.sound {us : List (Update β)} (h : Takes P R us) (hsound : R.Sound) :
    (R.run us).Sound := by
  induction us generalizing R with
  | nil => exact hsound
  | cons u us ih => exact ih h.2.2 (hsound.apply h.2.1)

/-- An update leaves what is final. -/
theorem apply_final {u : Update β} (haccepts : R.Accepts u) :
    R.final ≤ (R.apply u).final ∧ (R.apply u).chain.take R.final = R.chain.take R.final := by
  cases u with
  | put elem pos settled =>
    obtain ⟨hpos, hlen, -, -⟩ := haccepts
    refine ⟨Nat.le_max_left _ _, ?_⟩
    have htake : R.final ≤ (R.chain.take pos).length := by
      rw [List.length_take]
      omega
    show (R.chain.take pos ++ [elem]).take R.final = _
    rw [List.take_append_of_le_length htake, List.take_take, Nat.min_eq_left hpos]
  | cut length =>
    refine ⟨Nat.le_refl _, ?_⟩
    show (R.chain.take length).take R.final = _
    rw [List.take_take, Nat.min_eq_left haccepts.1]
  | settle count => exact ⟨Nat.le_max_left _ _, rfl⟩

/-- **Whatever is on its way** leaves what is final. -/
theorem Takes.final {us : List (Update β)} (h : Takes P R us) :
    R.final ≤ (R.run us).final ∧ (R.run us).chain.take R.final = R.chain.take R.final := by
  induction us generalizing R with
  | nil => exact ⟨Nat.le_refl _, rfl⟩
  | cons u us ih =>
    obtain ⟨hle, htake⟩ := apply_final h.2.1
    obtain ⟨hle', htake'⟩ := ih h.2.2
    refine ⟨Nat.le_trans hle hle', ?_⟩
    have hcut := congrArg (List.take R.final) htake'
    rw [List.take_take, List.take_take, Nat.min_eq_left hle] at hcut
    exact hcut.trans htake

/-! ## The chain that is copied -/

/-- What is final in `R` is final in `T`. -/
structure Follows (T R : Replica β) : Prop where
  final_le : R.final ≤ T.final
  take_final : R.chain.take R.final = T.chain.take R.final

theorem Follows.refl (T : Replica β) : Follows T T := ⟨Nat.le_refl _, rfl⟩

/-- Following is kept when the chain goes on. -/
theorem Follows.trans (h : Follows T R) (hT : Follows T' T) : Follows T' R := by
  refine ⟨Nat.le_trans h.final_le hT.final_le, h.take_final.trans ?_⟩
  have hcut := congrArg (List.take R.final) hT.take_final
  rwa [List.take_take, List.take_take, Nat.min_eq_left h.final_le] at hcut

/-- A replica follows what it will follow after updates. -/
theorem Follows.of_run {us : List (Update β)} (htakes : Takes P R us) (h : Follows T (R.run us)) :
    Follows T R := by
  obtain ⟨hle, htake⟩ := htakes.final
  refine ⟨Nat.le_trans hle h.final_le, htake.symm.trans ?_⟩
  have hcut := congrArg (List.take R.final) h.take_final
  rwa [List.take_take, List.take_take, Nat.min_eq_left hle] at hcut

/-- The replica agrees with a chain in the first `k` elements, and not in the next one if
both have one. -/
structure Agrees (R : Replica β) (target : List β) (k : ℕ) : Prop where
  final_le : R.final ≤ k
  le_length : k ≤ R.chain.length
  le_target : k ≤ target.length
  take_eq : R.chain.take k = target.take k
  differs : ∀ elem ∈ target[k]?, R.chain[k]? ≠ some elem

namespace Agrees

variable {target : List β} {k k' : ℕ}

/-- There is a place up to which they agree. -/
theorem exists_of_follows (h : T.Follows R) (hR : R.Sound) (hT : T.Sound) :
    ∃ k, R.Agrees T.chain k := by
  have hstart : R.final ≤ T.chain.length := Nat.le_trans h.final_le hT
  -- from what is final on, as far as the next elements are the same
  suffices hgo : ∀ n k, R.final ≤ k → k ≤ R.chain.length → k ≤ T.chain.length →
      R.chain.take k = T.chain.take k → T.chain.length - k = n → ∃ k, R.Agrees T.chain k from by
    refine hgo _ R.final (Nat.le_refl _) hR hstart ?_ rfl
    exact h.take_final
  intro n
  induction n with
  | zero =>
    intro k hfinal hlen htarget htake hn
    refine ⟨k, hfinal, hlen, htarget, htake, fun elem helem => ?_⟩
    rw [List.getElem?_eq_none (by omega)] at helem
    cases helem
  | succ n ih =>
    intro k hfinal hlen htarget htake hn
    have hlt : k < T.chain.length := by omega
    by_cases hnext : R.chain[k]? = some T.chain[k]
    · obtain ⟨hlt', hget⟩ := List.getElem?_eq_some_iff.mp hnext
      refine ih (k + 1) (Nat.le_succ_of_le hfinal) hlt' hlt ?_ (by omega)
      rw [List.take_succ_eq_append_getElem hlt', List.take_succ_eq_append_getElem hlt, htake, hget]
    · refine ⟨k, hfinal, hlen, htarget, htake, fun elem helem => ?_⟩
      rw [List.getElem?_eq_getElem hlt] at helem
      obtain rfl := Option.some.inj helem
      exact hnext

/-- There is only one. -/
theorem unique (h : R.Agrees target k) (h' : R.Agrees target k') : k = k' := by
  have hle : ∀ {k k'}, R.Agrees target k → R.Agrees target k' → ¬ k < k' := by
    intro k k' h h' hlt
    have hget := congrArg (·[k]?) h'.take_eq
    rw [List.getElem?_take_of_lt hlt, List.getElem?_take_of_lt hlt,
      List.getElem?_eq_getElem (Nat.lt_of_lt_of_le hlt h'.le_target)] at hget
    refine h.differs _ ?_ hget
    rw [List.getElem?_eq_getElem (Nat.lt_of_lt_of_le hlt h'.le_target)]
    rfl
  exact Nat.le_antisymm (Nat.le_of_not_lt (hle h' h)) (Nat.le_of_not_lt (hle h h'))

/-- A beginning of the chain agrees with it to its end. -/
theorem of_take (hsound : R.Sound) (hle : k ≤ target.length) (hchain : R.chain = target.take k) :
    R.Agrees target k := by
  have hlen : R.chain.length = k := by
    rw [hchain, List.length_take]
    omega
  refine ⟨hlen ▸ hsound, Nat.le_of_eq hlen.symm, hle, ?_, fun elem _ hget => ?_⟩
  · rw [hchain, List.take_take, Nat.min_self]
  · rw [List.getElem?_eq_none (by omega)] at hget
    cases hget

/-- The next element of the chain. -/
theorem put (h : R.Agrees target k) (hlt : k < target.length) {settled : ℕ}
    (hsettled : settled ≤ k + 1) :
    R.Accepts (.put target[k] k settled) ∧
      (R.apply (.put target[k] k settled)).Agrees target (k + 1) ∧
      (R.apply (.put target[k] k settled)).chain = target.take (k + 1) := by
  have hchain : (R.apply (.put target[k] k settled)).chain = target.take (k + 1) := by
    show R.chain.take k ++ [target[k]] = _
    rw [h.take_eq, List.take_append_getElem]
  have hlen : (R.apply (.put target[k] k settled)).chain.length = k + 1 := by
    rw [hchain, List.length_take]
    omega
  refine ⟨⟨h.final_le, h.le_length, ?_, hsettled⟩, ⟨?_, ?_, hlt, ?_, ?_⟩, hchain⟩
  · exact h.differs _ (by rw [List.getElem?_eq_getElem hlt]; rfl)
  · have hfinal := h.final_le
    show max R.final settled ≤ k + 1
    omega
  · exact Nat.le_of_eq hlen.symm
  · rw [hchain, List.take_take, Nat.min_self]
  · intro elem _ hget
    rw [List.getElem?_eq_none (by omega)] at hget
    cases hget

/-- A part of what agrees is settled. -/
theorem settle (h : R.Agrees target k) {count : ℕ} (hcount : count ≤ k) :
    R.Accepts (.settle count) ∧ (R.apply (.settle count)).Agrees target k := by
  refine ⟨Nat.le_trans hcount h.le_length, ⟨?_, h.le_length, h.le_target, h.take_eq, h.differs⟩⟩
  have hfinal := h.final_le
  show max R.final count ≤ k
  omega

/-- What does not agree is cut off. -/
theorem cut (h : R.Agrees target k) (hlt : k < R.chain.length) :
    R.Accepts (.cut k) ∧ (R.apply (.cut k)).chain = target.take k :=
  ⟨⟨h.final_le, hlt⟩, h.take_eq⟩

/-- All of it agrees. -/
theorem chain_eq (h : R.Agrees target k) (heq : k = R.chain.length) : R.chain = target.take k := by
  rw [← h.take_eq, heq, List.take_length]

end Agrees

end Replica

end Microchain.Lib
