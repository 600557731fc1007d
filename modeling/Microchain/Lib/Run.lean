import Mathlib.Logic.Basic

/-!
# Computations that may not return

A program with loops, given by what it does with a bounded number of steps: a
function from fuel to an outcome (`Run`), where `running` says that the fuel was not
enough. With more fuel such a program only gets further (`Mono`), so it does one
thing: it returns a value, fails, or runs for ever.

The rules follow `bind`. What a sequence does is known from what its parts do
(`Terminates.bind`, `Diverges.bind`, `Returns.diverges_bind`), and a property of
everything a part returns is one of everything the sequence returns (`All.bind`).
-/

namespace Microchain.Lib

universe u

/-- The outcome of a computation with bounded fuel. -/
inductive Run (ε : Type u) (α : Type u) where
  | running
  | fails (e : ε)
  | returns (a : α)
deriving DecidableEq, Repr

namespace Run

variable {ε α β : Type u}

protected def bind : Run ε α → (α → Run ε β) → Run ε β
  | running, _ => running
  | fails e, _ => fails e
  | returns a, k => k a

instance : Monad (Run ε) where
  pure := returns
  bind := Run.bind

@[simp] theorem running_bind (k : α → Run ε β) : (running >>= k : Run ε β) = running := rfl

@[simp] theorem fails_bind (e : ε) (k : α → Run ε β) : (fails e >>= k : Run ε β) = fails e := rfl

@[simp] theorem returns_bind (a : α) (k : α → Run ε β) : (returns a >>= k) = k a := rfl

theorem bind_assoc {γ : Type u} (x : Run ε α) (k : α → Run ε β) (k' : β → Run ε γ) :
    (x >>= k) >>= k' = x >>= fun a => k a >>= k' := by
  cases x <;> rfl

/-- Only what the first part returns matters to the second. -/
theorem bind_congr {x : Run ε α} {k k' : α → Run ε β} (h : ∀ a, x = returns a → k a = k' a) :
    x >>= k = x >>= k' := by
  cases x with
  | running => rfl
  | fails e => rfl
  | returns a => exact h a rfl

/-- `y` is what `x` comes to with more fuel. -/
def Upto (x y : Run ε α) : Prop := x = running ∨ y = x

@[simp] theorem Upto.refl (x : Run ε α) : x.Upto x := Or.inr rfl

theorem Upto.running (x : Run ε α) : Run.running.Upto x := Or.inl rfl

theorem Upto.trans {x y z : Run ε α} (hxy : x.Upto y) (hyz : y.Upto z) : x.Upto z := by
  rcases hxy with hx | rfl
  · exact Or.inl hx
  · exact hyz

theorem Upto.bind {x y : Run ε α} {k k' : α → Run ε β} (hxy : x.Upto y)
    (hk : ∀ a, (k a).Upto (k' a)) : (x >>= k).Upto (y >>= k') := by
  rcases hxy with rfl | rfl
  · exact Upto.running _
  · cases y with
    | running => exact Upto.refl _
    | fails e => exact Upto.refl _
    | returns a => exact hk a

/-- Every value it returns satisfies `P`. -/
def All (P : α → Prop) (x : Run ε α) : Prop := ∀ a, x = returns a → P a

theorem All.returns {P : α → Prop} {a : α} (h : P a) : (Run.returns a : Run ε α).All P := by
  rintro _ ⟨⟩
  exact h

theorem All.fails {P : α → Prop} {e : ε} : (Run.fails e : Run ε α).All P := nofun

theorem All.running {P : α → Prop} : (Run.running : Run ε α).All P := nofun

theorem All.bind {P : α → Prop} {Q : β → Prop} {x : Run ε α} {k : α → Run ε β} (hx : x.All P)
    (hk : ∀ a, P a → (k a).All Q) : (x >>= k).All Q := by
  cases x with
  | running => exact All.running
  | fails e => exact All.fails
  | returns a => exact hk a (hx a rfl)

/-- A first part of which nothing is known. -/
theorem All.any_bind {Q : β → Prop} {x : Run ε α} {k : α → Run ε β} (hk : ∀ a, (k a).All Q) :
    (x >>= k).All Q :=
  All.bind (P := fun _ => True) (fun _ _ => trivial) fun a _ => hk a

theorem All.ite {P : α → Prop} {c : Prop} [Decidable c] {x y : Run ε α} (hx : c → x.All P)
    (hy : ¬ c → y.All P) : (if c then x else y).All P := by
  split
  · exact hx ‹_›
  · exact hy ‹_›

/-- No failure it ends with satisfies `P`. -/
def NeverFails (P : ε → Prop) (x : Run ε α) : Prop := ∀ e, x = fails e → ¬ P e

theorem NeverFails.returns {P : ε → Prop} (a : α) : (Run.returns a : Run ε α).NeverFails P :=
  fun _ he => by cases he

theorem NeverFails.running {P : ε → Prop} : (Run.running : Run ε α).NeverFails P :=
  fun _ he => by cases he

theorem NeverFails.fails {P : ε → Prop} {e : ε} (h : ¬ P e) :
    (Run.fails e : Run ε α).NeverFails P := by
  rintro _ ⟨⟩
  exact h

theorem NeverFails.bind {P : ε → Prop} {x : Run ε α} {k : α → Run ε β} (hx : x.NeverFails P)
    (hk : ∀ a, (k a).NeverFails P) : (x >>= k).NeverFails P := by
  cases x with
  | running => exact NeverFails.running
  | fails e => exact NeverFails.fails (hx e rfl)
  | returns a => exact hk a

theorem NeverFails.ite {P : ε → Prop} {c : Prop} [Decidable c] {x y : Run ε α}
    (hx : c → x.NeverFails P) (hy : ¬ c → y.NeverFails P) :
    (if c then x else y).NeverFails P := by
  split
  · exact hx ‹_›
  · exact hy ‹_›

/-- It ends with a failure that satisfies `P`. -/
def FailsWith (P : ε → Prop) (x : Run ε α) : Prop := ∃ e, P e ∧ x = fails e

theorem neverFails_iff {P : ε → Prop} {x : Run ε α} : x.NeverFails P ↔ ¬ x.FailsWith P := by
  constructor
  · rintro h ⟨e, he, hx⟩
    exact h e hx he
  · intro h e hx he
    exact h ⟨e, he, hx⟩

@[simp] theorem failsWith_returns {P : ε → Prop} (a : α) :
    (Run.returns a : Run ε α).FailsWith P ↔ False := by
  simp [FailsWith]

@[simp] theorem failsWith_fails {P : ε → Prop} (e : ε) :
    (Run.fails e : Run ε α).FailsWith P ↔ P e := by
  simp [FailsWith]

/-- A sequence fails in its first part, or in its second part after what the first
returns. -/
theorem failsWith_bind {P : ε → Prop} {x : Run ε α} {k : α → Run ε β} :
    (x >>= k).FailsWith P ↔ x.FailsWith P ∨ ∃ a, x = returns a ∧ (k a).FailsWith P := by
  cases x <;> simp [FailsWith]

/-- It has an outcome. -/
def Settled (x : Run ε α) : Prop := x ≠ running

theorem Settled.returns (a : α) : (Run.returns a : Run ε α).Settled := nofun

theorem Settled.fails (e : ε) : (Run.fails e : Run ε α).Settled := nofun

theorem Settled.bind {x : Run ε α} {k : α → Run ε β} (hx : x.Settled)
    (hk : ∀ a, (k a).Settled) : (x >>= k).Settled := by
  cases x with
  | running => exact absurd rfl hx
  | fails e => exact Settled.fails e
  | returns a => exact hk a

/-- It has an outcome, and what it returns satisfies `P`. -/
structure Ends (P : α → Prop) (x : Run ε α) : Prop where
  settled : x.Settled
  all : x.All P

theorem Ends.returns {P : α → Prop} {a : α} (h : P a) : (Run.returns a : Run ε α).Ends P :=
  ⟨Settled.returns a, All.returns h⟩

theorem Ends.fails {P : α → Prop} (e : ε) : (Run.fails e : Run ε α).Ends P :=
  ⟨Settled.fails e, All.fails⟩

theorem Ends.mono {P Q : α → Prop} {x : Run ε α} (h : x.Ends P) (hPQ : ∀ a, P a → Q a) : x.Ends Q :=
  ⟨h.settled, fun a ha => hPQ a (h.all a ha)⟩

theorem Ends.bind {P : α → Prop} {Q : β → Prop} {x : Run ε α} {k : α → Run ε β} (hx : x.Ends P)
    (hk : ∀ a, P a → (k a).Ends Q) : (x >>= k).Ends Q := by
  cases x with
  | running => exact absurd rfl hx.settled
  | fails e => exact Ends.fails e
  | returns a => exact hk a (hx.all a rfl)

theorem Ends.ite {P : α → Prop} {c : Prop} [Decidable c] {x y : Run ε α} (hx : c → x.Ends P)
    (hy : ¬ c → y.Ends P) : (if c then x else y).Ends P := by
  split
  · exact hx ‹_›
  · exact hy ‹_›

/-- A first part of which nothing is known but that it ends. -/
theorem Settled.ends_bind {Q : β → Prop} {x : Run ε α} {k : α → Run ε β} (hx : x.Settled)
    (hk : ∀ a, (k a).Ends Q) : (x >>= k).Ends Q :=
  Ends.bind ⟨hx, fun _ _ => trivial⟩ fun a _ => hk a

/-- It has an outcome, which is no failure that satisfies `P`. -/
structure EndsWell (P : ε → Prop) (x : Run ε α) : Prop where
  settled : x.Settled
  neverFails : x.NeverFails P

theorem EndsWell.returns {P : ε → Prop} (a : α) : (Run.returns a : Run ε α).EndsWell P :=
  ⟨Settled.returns a, NeverFails.returns a⟩

theorem EndsWell.fails {P : ε → Prop} {e : ε} (h : ¬ P e) : (Run.fails e : Run ε α).EndsWell P :=
  ⟨Settled.fails e, NeverFails.fails h⟩

theorem EndsWell.bind {P : ε → Prop} {x : Run ε α} {k : α → Run ε β} (hx : x.EndsWell P)
    (hk : ∀ a, x = Run.returns a → (k a).EndsWell P) : (x >>= k).EndsWell P := by
  cases x with
  | running => exact absurd rfl hx.settled
  | fails e => exact EndsWell.fails (hx.neverFails e rfl)
  | returns a => exact hk a rfl

/-- A sequence that ends well has a first part that does. -/
theorem EndsWell.of_bind {P : ε → Prop} {x : Run ε α} {k : α → Run ε β}
    (h : (x >>= k).EndsWell P) : x.EndsWell P := by
  cases x with
  | running => exact absurd rfl h.settled
  | fails e => exact EndsWell.fails (h.neverFails e rfl)
  | returns a => exact .returns a

/-- After what that part returns, so does the second. -/
theorem EndsWell.of_bind_returns {P : ε → Prop} {x : Run ε α} {k : α → Run ε β} {a : α}
    (h : (x >>= k).EndsWell P) (hx : x = Run.returns a) : (k a).EndsWell P := by
  rwa [hx] at h

end Run

section Fuel

variable {ε α β : Type u}

/-- More fuel only gets further. -/
def Mono (f : Nat → Run ε α) : Prop := ∀ n, (f n).Upto (f (n + 1))

/-- With enough fuel there is an outcome. -/
def Terminates (f : Nat → Run ε α) : Prop := ∃ n, f n ≠ .running

/-- No fuel is enough. -/
def Diverges (f : Nat → Run ε α) : Prop := ∀ n, f n = .running

/-- With enough fuel it returns `a`. -/
def Returns (f : Nat → Run ε α) (a : α) : Prop := ∃ n, f n = .returns a

/-- With enough fuel it fails with `e`. -/
def Fails (f : Nat → Run ε α) (e : ε) : Prop := ∃ n, f n = .fails e

theorem not_terminates_iff {f : Nat → Run ε α} : ¬ Terminates f ↔ Diverges f := by
  simp [Terminates, Diverges]

theorem Mono.const (x : Run ε α) : Mono fun _ => x := fun _ => Run.Upto.refl x

theorem Mono.upto {f : Nat → Run ε α} (hf : Mono f) {n m : Nat} (h : n ≤ m) :
    (f n).Upto (f m) := by
  induction h with
  | refl => exact Run.Upto.refl _
  | step _ ih => exact ih.trans (hf _)

theorem Mono.bind {f : Nat → Run ε α} {g : α → Nat → Run ε β} (hf : Mono f) (hg : ∀ a, Mono (g a)) :
    Mono fun n => f n >>= fun a => g a n := fun n => (hf n).bind fun a => hg a n

/-- An outcome stays what it is. -/
theorem Mono.eq_of_le {f : Nat → Run ε α} (hf : Mono f) {n m : Nat} (h : n ≤ m)
    (hn : f n ≠ .running) : f m = f n := (hf.upto h).resolve_left hn

theorem Returns.of_le {f : Nat → Run ε α} (hf : Mono f) {n m : Nat} {a : α} (h : n ≤ m)
    (hn : f n = .returns a) : f m = .returns a := by
  rw [hf.eq_of_le h (by rw [hn]; nofun), hn]

/-- It returns one value. -/
theorem Returns.upto {f : Nat → Run ε α} (hf : Mono f) {a : α} (h : Returns f a) (n : Nat) :
    f n = .running ∨ f n = .returns a := by
  obtain ⟨m, hm⟩ := h
  rcases Nat.le_total n m with hle | hle
  · rcases hf.upto hle with hr | hr
    · exact Or.inl hr
    · exact Or.inr (hr ▸ hm)
  · exact Or.inr (Returns.of_le hf hle hm)

/-- One step more in front. -/
theorem Terminates.succ {f g : Nat → Run ε α} (h : ∀ n, f (n + 1) = g n) (hg : Terminates g) :
    Terminates f := by
  obtain ⟨n, hn⟩ := hg
  exact ⟨n + 1, by rwa [h]⟩

theorem Diverges.succ {f g : Nat → Run ε α} (h0 : f 0 = .running) (h : ∀ n, f (n + 1) = g n)
    (hg : Diverges g) : Diverges f := by
  intro n
  cases n with
  | zero => exact h0
  | succ n => rw [h, hg n]

theorem Returns.succ {f g : Nat → Run ε α} {a : α} (h : ∀ n, f (n + 1) = g n) (hg : Returns g a) :
    Returns f a := by
  obtain ⟨n, hn⟩ := hg
  exact ⟨n + 1, by rwa [h]⟩

theorem Returns.of_succ {f g : Nat → Run ε α} (h0 : f 0 = .running) (h : ∀ n, f (n + 1) = g n)
    {a : α} (hf : Returns f a) : Returns g a := by
  obtain ⟨n, hn⟩ := hf
  cases n with
  | zero =>
    rw [h0] at hn
    cases hn
  | succ n => exact ⟨n, by rwa [← h]⟩

/-- A sequence terminates if its first part does and its second part does after
everything the first can return. -/
theorem Terminates.bind {f : Nat → Run ε α} {g : α → Nat → Run ε β} (hf : Mono f)
    (hg : ∀ a, Mono (g a)) (h : Terminates f) (hreturns : ∀ a, Returns f a → Terminates (g a)) :
    Terminates fun n => f n >>= fun a => g a n := by
  obtain ⟨n, hn⟩ := h
  match hfn : f n with
  | .running => exact absurd hfn hn
  | .fails e =>
    refine ⟨n, ?_⟩
    show (f n >>= fun a => g a n) ≠ .running
    rw [hfn]
    nofun
  | .returns a =>
    obtain ⟨m, hm⟩ := hreturns a ⟨n, hfn⟩
    refine ⟨max n m, ?_⟩
    show (f (max n m) >>= fun a => g a (max n m)) ≠ .running
    rw [Returns.of_le hf (Nat.le_max_left n m) hfn, Run.returns_bind,
      (hg a).eq_of_le (Nat.le_max_right n m) hm]
    exact hm

/-- The same with a first part that needs no fuel. -/
theorem Terminates.settled_bind {x : Run ε α} {g : α → Nat → Run ε β} (hx : x.Settled)
    (h : ∀ a, x = .returns a → Terminates (g a)) : Terminates fun n => x >>= fun a => g a n := by
  match hxa : x with
  | .running => exact absurd rfl hx
  | .fails e => exact ⟨0, nofun⟩
  | .returns a => exact h a rfl

/-- A sequence whose first part runs for ever does too. -/
theorem Diverges.bind {f : Nat → Run ε α} {g : α → Nat → Run ε β} (h : Diverges f) :
    Diverges fun n => f n >>= fun a => g a n := by
  intro n
  show (f n >>= fun a => g a n) = .running
  rw [h n]
  rfl

/-- So does one whose second part runs for ever after what the first returns. -/
theorem Returns.diverges_bind {f : Nat → Run ε α} {g : α → Nat → Run ε β} (hf : Mono f) {a : α}
    (h : Returns f a) (hg : Diverges (g a)) : Diverges fun n => f n >>= fun a => g a n := by
  intro n
  show (f n >>= fun a => g a n) = .running
  rcases h.upto hf n with hr | hr
  · rw [hr]
    rfl
  · rw [hr, Run.returns_bind]
    exact hg n

/-- What a sequence returns, its second part returns after what the first does. -/
theorem Returns.of_bind {f : Nat → Run ε α} {g : α → Nat → Run ε β} {b : β}
    (h : Returns (fun n => f n >>= fun a => g a n) b) : ∃ a, Returns f a ∧ Returns (g a) b := by
  obtain ⟨n, hn⟩ := h
  match hfn : f n with
  | .running => simp [hfn] at hn
  | .fails e => simp [hfn] at hn
  | .returns a =>
    refine ⟨a, ⟨n, hfn⟩, n, ?_⟩
    simpa [hfn] using hn

theorem Returns.bind {f : Nat → Run ε α} {g : α → Nat → Run ε β} (hf : Mono f)
    (hg : ∀ a, Mono (g a)) {a : α} {b : β} (ha : Returns f a) (hb : Returns (g a) b) :
    Returns (fun n => f n >>= fun a => g a n) b := by
  obtain ⟨n, hn⟩ := ha
  obtain ⟨m, hm⟩ := hb
  refine ⟨max n m, ?_⟩
  show (f (max n m) >>= fun a => g a (max n m)) = .returns b
  rw [Returns.of_le hf (Nat.le_max_left n m) hn, Run.returns_bind,
    Returns.of_le (hg a) (Nat.le_max_right n m) hm]

/-! ### Failures -/

theorem Fails.succ {f g : Nat → Run ε α} {e : ε} (h : ∀ n, f (n + 1) = g n) (hg : Fails g e) :
    Fails f e := by
  obtain ⟨n, hn⟩ := hg
  exact ⟨n + 1, by rwa [h]⟩

/-- A sequence whose first part fails does too. -/
theorem Fails.bind {f : Nat → Run ε α} {g : α → Nat → Run ε β} {e : ε} (h : Fails f e) :
    Fails (fun n => f n >>= fun a => g a n) e := by
  obtain ⟨n, hn⟩ := h
  refine ⟨n, ?_⟩
  show (f n >>= fun a => g a n) = .fails e
  rw [hn]
  rfl

/-- So does one whose second part fails after what the first returns. -/
theorem Returns.fails_bind {f : Nat → Run ε α} {g : α → Nat → Run ε β} (hf : Mono f)
    (hg : ∀ a, Mono (g a)) {a : α} {e : ε} (h : Returns f a) (hfails : Fails (g a) e) :
    Fails (fun n => f n >>= fun a => g a n) e := by
  obtain ⟨n, hn⟩ := h
  obtain ⟨m, hm⟩ := hfails
  refine ⟨max n m, ?_⟩
  show (f (max n m) >>= fun a => g a (max n m)) = .fails e
  have hgm : g a m ≠ .running := by rw [hm]; nofun
  rw [Returns.of_le hf (Nat.le_max_left n m) hn, Run.returns_bind,
    (hg a).eq_of_le (Nat.le_max_right n m) hgm, hm]

/-- A failure of a sequence is one of its first part, or of its second part after what
the first returns. -/
theorem fails_of_bind {x : Run ε α} {k : α → Run ε β} {e : ε} (h : (x >>= k) = .fails e) :
    x = .fails e ∨ ∃ a, x = .returns a ∧ k a = .fails e := by
  cases x with
  | running => cases h
  | fails e' =>
    cases h
    exact .inl rfl
  | returns a => exact .inr ⟨a, rfl, h⟩

/-- What a sequence returns, its second part returns. -/
theorem returns_of_bind {x : Run ε α} {k : α → Run ε β} {b : β} (h : (x >>= k) = .returns b) :
    ∃ a, x = .returns a ∧ k a = .returns b := by
  cases x with
  | running => cases h
  | fails e => cases h
  | returns a => exact ⟨a, rfl, h⟩

/-- What terminates and does not fail returns. -/
theorem Terminates.returns {f : Nat → Run ε α} (h : Terminates f) (hno : ∀ e, ¬ Fails f e) :
    ∃ a, Returns f a := by
  obtain ⟨n, hn⟩ := h
  cases hfn : f n with
  | running => exact absurd hfn hn
  | fails e => exact absurd ⟨n, hfn⟩ (hno e)
  | returns a => exact ⟨a, n, hfn⟩

/-- It does not do both. -/
theorem Returns.not_fails {f : Nat → Run ε α} (hf : Mono f) {a : α} (h : Returns f a) {e : ε} :
    ¬ Fails f e := by
  rintro ⟨n, hn⟩
  rcases h.upto hf n with hr | hr
  · rw [hn] at hr
    cases hr
  · rw [hn] at hr
    cases hr

theorem Returns.unique {f : Nat → Run ε α} (hf : Mono f) {a a' : α} (h : Returns f a)
    (h' : Returns f a') : a = a' := by
  obtain ⟨n, hn⟩ := h'
  rcases h.upto hf n with hr | hr
  · rw [hn] at hr
    cases hr
  · rw [hn] at hr
    cases hr
    rfl

/-! ### Ending well -/

/-- With enough fuel it ends, and not with a failure that satisfies `P`. -/
def EventuallyWell (P : ε → Prop) (f : Nat → Run ε α) : Prop := ∃ n, (f n).EndsWell P

theorem eventuallyWell_const {P : ε → Prop} {x : Run ε α} :
    EventuallyWell P (fun _ => x) ↔ x.EndsWell P :=
  ⟨fun ⟨_, h⟩ => h, fun h => ⟨0, h⟩⟩

theorem returns_const {x : Run ε α} {a : α} : Returns (fun _ => x) a ↔ x = .returns a :=
  ⟨fun ⟨_, h⟩ => h, fun h => ⟨0, h⟩⟩

theorem returns_bind_iff {f : Nat → Run ε α} {g : α → Nat → Run ε β} (hf : Mono f)
    (hg : ∀ a, Mono (g a)) {b : β} :
    Returns (fun n => f n >>= fun a => g a n) b ↔ ∃ a, Returns f a ∧ Returns (g a) b :=
  ⟨Returns.of_bind, fun ⟨_, ha, hb⟩ => Returns.bind hf hg ha hb⟩

/-- What its first part returns with enough fuel, it returns with the fuel that the
sequence ends with. -/
theorem Returns.eq_of_settled {f : Nat → Run ε α} (hf : Mono f) {a : α} (h : Returns f a) {n : Nat}
    (hn : (f n).Settled) : f n = .returns a :=
  (h.upto hf n).resolve_left hn

theorem EventuallyWell.of_le {P : ε → Prop} {f : Nat → Run ε α} (hf : Mono f) {n m : Nat}
    (h : n ≤ m) (hn : (f n).EndsWell P) : (f m).EndsWell P := by
  rwa [hf.eq_of_le h hn.settled]

/-- A sequence ends well exactly if its first part does, and its second part does after
everything the first can return. -/
theorem eventuallyWell_bind_iff {P : ε → Prop} {f : Nat → Run ε α} {g : α → Nat → Run ε β}
    (hf : Mono f) (hg : ∀ a, Mono (g a)) :
    EventuallyWell P (fun n => f n >>= fun a => g a n) ↔
      EventuallyWell P f ∧ ∀ a, Returns f a → EventuallyWell P (g a) := by
  constructor
  · rintro ⟨n, hn⟩
    refine ⟨⟨n, hn.of_bind⟩, fun a ha => ⟨n, hn.of_bind_returns ?_⟩⟩
    exact ha.eq_of_settled hf hn.of_bind.settled
  · rintro ⟨⟨n, hn⟩, hall⟩
    match hfn : f n with
    | .running => exact absurd hfn hn.settled
    | .fails e =>
      refine ⟨n, ?_⟩
      show (f n >>= fun a => g a n).EndsWell P
      rw [hfn]
      exact Run.EndsWell.fails (hn.neverFails e hfn)
    | .returns a =>
      obtain ⟨m, hm⟩ := hall a ⟨n, hfn⟩
      refine ⟨max n m, ?_⟩
      show (f (max n m) >>= fun a => g a (max n m)).EndsWell P
      rw [Returns.of_le hf (Nat.le_max_left n m) hfn, Run.returns_bind]
      exact EventuallyWell.of_le (hg a) (Nat.le_max_right n m) hm

/-- The same with a first part that needs no fuel and ends well. -/
theorem eventuallyWell_endsWell_bind_iff {P : ε → Prop} {x : Run ε α} {g : α → Nat → Run ε β}
    (hx : x.EndsWell P) (hg : ∀ a, Mono (g a)) :
    EventuallyWell P (fun n => x >>= fun a => g a n) ↔
      ∀ a, x = .returns a → EventuallyWell P (g a) := by
  rw [eventuallyWell_bind_iff (Mono.const x) hg, eventuallyWell_const]
  simp only [returns_const, hx, true_and]

/-- The weakest precondition of `Q`: with enough fuel it ends, not with a failure that
satisfies `P`, and what it returns satisfies `Q`. -/
def Wp (P : ε → Prop) (f : Nat → Run ε α) (Q : α → Prop) : Prop :=
  EventuallyWell P f ∧ ∀ a, Returns f a → Q a

theorem wp_congr {P : ε → Prop} {f : Nat → Run ε α} {Q Q' : α → Prop}
    (h : ∀ a, Returns f a → (Q a ↔ Q' a)) : Wp P f Q ↔ Wp P f Q' :=
  and_congr_right fun _ => forall_congr' fun a => imp_congr_right fun ha => h a ha

theorem wp_true_iff {P : ε → Prop} {f : Nat → Run ε α} :
    Wp P f (fun _ => True) ↔ EventuallyWell P f := by
  simp [Wp]

/-- Only what is returned needs no fuel. -/
theorem wp_returns_iff {P : ε → Prop} {a : α} {Q : α → Prop} :
    Wp P (fun _ => .returns a) Q ↔ Q a := by
  rw [Wp, eventuallyWell_const]
  simp only [returns_const, Run.returns.injEq, forall_eq', and_iff_right_iff_imp]
  exact fun _ => Run.EndsWell.returns a

/-- A failure that does not satisfy `P` needs nothing. -/
theorem wp_fails {P : ε → Prop} {e : ε} {Q : α → Prop} (h : ¬ P e) :
    Wp P (fun _ => .fails e) Q :=
  ⟨⟨0, Run.EndsWell.fails h⟩, fun _ ⟨_, ha⟩ => nomatch ha⟩

theorem wp_bind_iff {P : ε → Prop} {f : Nat → Run ε α} {g : α → Nat → Run ε β} (hf : Mono f)
    (hg : ∀ a, Mono (g a)) {Q : β → Prop} :
    Wp P (fun n => f n >>= fun a => g a n) Q ↔ Wp P f fun a => Wp P (g a) Q := by
  unfold Wp
  rw [eventuallyWell_bind_iff hf hg]
  simp only [returns_bind_iff hf hg]
  constructor
  · rintro ⟨⟨hwell, hall⟩, hQ⟩
    exact ⟨hwell, fun a ha => ⟨hall a ha, fun b hb => hQ b ⟨a, ha, hb⟩⟩⟩
  · rintro ⟨hwell, hall⟩
    exact ⟨⟨hwell, fun a ha => (hall a ha).1⟩, fun b ⟨a, ha, hb⟩ => (hall a ha).2 b hb⟩

/-- The same with a first part that needs no fuel and ends well. -/
theorem wp_endsWell_bind_iff {P : ε → Prop} {x : Run ε α} {g : α → Nat → Run ε β}
    (hx : x.EndsWell P) (hg : ∀ a, Mono (g a)) {Q : β → Prop} :
    Wp P (fun n => x >>= fun a => g a n) Q ↔ ∀ a, x = .returns a → Wp P (g a) Q := by
  rw [wp_bind_iff (Mono.const x) hg, Wp, eventuallyWell_const]
  simp only [returns_const, hx, true_and]

/-! ### What a computation comes to -/

section Computes

variable {δ γ κ : Type u} {lift : δ → ε}

/-- With enough fuel it does what `x` does: it returns `out a` for the value of `x`, or
fails with what `lift` makes of its error. -/
def Computes (lift : δ → ε) (f : Nat → Run ε α) (x : Except δ γ) (out : γ → α) : Prop :=
  match x with
  | .ok a => Returns f (out a)
  | .error d => Fails f (lift d)

theorem Computes.ok {f : Nat → Run ε α} {a : γ} {out : γ → α} (h : Returns f (out a)) :
    Computes lift f (.ok a) out := h

theorem Computes.error {f : Nat → Run ε α} {d : δ} {out : γ → α} (h : Fails f (lift d)) :
    Computes lift f (.error d) out := h

theorem Computes.succ {f g : Nat → Run ε α} {x : Except δ γ} {out : γ → α}
    (h : ∀ n, f (n + 1) = g n) (hg : Computes lift g x out) : Computes lift f x out := by
  cases x with
  | ok a => exact Returns.succ h hg
  | error d => exact Fails.succ h hg

/-- What is returned can be changed at the end of `x`. -/
theorem Computes.map {f : Nat → Run ε α} {x : Except δ γ} {h : γ → κ} {out : κ → α}
    (hx : Computes lift f x fun a => out (h a)) :
    Computes lift f (x >>= fun a => .ok (h a)) out := by
  cases x with
  | ok a => exact hx
  | error d => exact hx

/-- A sequence computes what the sequence of its parts' meanings is. -/
theorem Computes.bind {f : Nat → Run ε α} {g : α → Nat → Run ε β} {x : Except δ γ}
    {k : γ → Except δ κ} {out : γ → α} {out' : κ → β} (hf : Mono f) (hg : ∀ a, Mono (g a))
    (hx : Computes lift f x out)
    (hk : ∀ a, x = .ok a → Computes lift (g (out a)) (k a) out') :
    Computes lift (fun n => f n >>= fun a => g a n) (x >>= k) out' := by
  cases x with
  | error d => exact Fails.bind hx
  | ok a =>
    have hka := hk a rfl
    show Computes lift _ (k a) out'
    cases hkx : k a with
    | ok b =>
      rw [hkx] at hka
      exact Returns.bind hf hg hx hka
    | error d =>
      rw [hkx] at hka
      exact Returns.fails_bind hf hg hx hka

/-- The same where the second part returns, after every value. -/
theorem Computes.bind_returns {f : Nat → Run ε α} {g : α → Nat → Run ε β} {x : Except δ γ}
    {out : γ → α} {out' : γ → β} (hf : Mono f) (hg : ∀ a, Mono (g a)) (hx : Computes lift f x out)
    (h : ∀ a, x = .ok a → Returns (g (out a)) (out' a)) :
    Computes lift (fun n => f n >>= fun a => g a n) x out' := by
  cases x with
  | ok a => exact Returns.bind hf hg hx (h a rfl)
  | error d => exact Fails.bind hx

end Computes

end Fuel

end Microchain.Lib
