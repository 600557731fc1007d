import Microchain.Eosio.Bin
import Microchain.Lib.LinkedList

/-!
# Registering code with a debugger (`dwarf.cpp`)

A debugger finds generated code through a descriptor: a list of entries, each with a symbol
file, that it reads when it attaches, and a function that is called at each change, with the
entry that comes or goes. `debugger_registration` holds an entry and its file; it enters the
list by `reg` and leaves it when it is destroyed.

Addresses are of any type. An access to an object that is not there has no result (`none`).
-/

namespace Microchain.DebugEosVm

open Eosio Lib

universe u

/-- `jit_actions` -/
inductive JitActions where
  | noaction
  | registerFn
  | unregisterFn
deriving DecidableEq, Repr

/-- `jit_code_entry`; `symfile` is what `symfile_addr` and `symfile_size` span. -/
structure JitCodeEntry (α : Type u) where
  nextEntry : Option α := none
  prevEntry : Option α := none
  symfile : Option Bytes := none
deriving DecidableEq, Repr

/-- `jit_descriptor` -/
structure JitDescriptor (α : Type u) where
  version : UInt32 := 1
  actionFlag : JitActions := .noaction
  relevantEntry : Option α := none
  firstEntry : Option α := none
deriving DecidableEq, Repr

/-- `debugger_registration` -/
structure DebuggerRegistration (α : Type u) where
  desc : JitCodeEntry α := {}
  symfile : Bytes := []
deriving DecidableEq, Repr

/-- What a debugger gets to see in a call of `__jit_debug_register_code`: the descriptor, and
the file of the entry that it is about. -/
structure Notice (α : Type u) where
  descriptor : JitDescriptor α
  symfile : Option Bytes
deriving DecidableEq, Repr

/-- The objects that there are, `__jit_debug_descriptor`, and the calls of
`__jit_debug_register_code`. -/
structure JitState (α : Type u) where
  memory : α → Option (DebuggerRegistration α) := fun _ => none
  descriptor : JitDescriptor α := {}
  notices : List (Notice α) := []

namespace JitState

variable {α : Type u} [DecidableEq α]

/-- `std::make_shared`, at an address. -/
def make (s : JitState α) (this : α) (r : DebuggerRegistration α) : JitState α :=
  { s with memory := Function.update s.memory this (some r) }

/-- `p->desc` -/
def desc (s : JitState α) (p : α) : Option (JitCodeEntry α) := (s.memory p).map (·.desc)

/-- Assign to members of `p->desc`. -/
def modify (s : JitState α) (p : α) (f : JitCodeEntry α → JitCodeEntry α) : Option (JitState α) :=
  (s.memory p).map fun r =>
    { s with memory := Function.update s.memory p (some { r with desc := f r.desc }) }

/-- Assign to members of `p->desc`, unless `p` is null. -/
def modifyIf (s : JitState α) (p : Option α) (f : JitCodeEntry α → JitCodeEntry α) :
    Option (JitState α) :=
  match p with
  | some p => s.modify p f
  | none => some s

/-- Set the flag and the entry, and call `__jit_debug_register_code`. -/
def notify (s : JitState α) (actionFlag : JitActions) (relevantEntry : α) : JitState α :=
  let descriptor := { s.descriptor with actionFlag, relevantEntry := some relevantEntry }
  { s with
    descriptor
    notices := s.notices ++ [⟨descriptor, (s.desc relevantEntry).bind (·.symfile)⟩] }

/-- `debugger_registration::reg` -/
def reg (s : JitState α) (this : α) : Option (JitState α) := do
  let r ← s.memory this
  let s ← s.modify this fun desc => { desc with symfile := some r.symfile }
  let first := s.descriptor.firstEntry
  let s ← s.modifyIf first fun desc => { desc with prevEntry := some this }
  -- also only if there is a first entry
  let s ← s.modifyIf (first.map fun _ => this) fun desc => { desc with nextEntry := first }
  some ({ s with descriptor := { s.descriptor with firstEntry := some this } }.notify
    .registerFn this)

/-- `~debugger_registration` -/
def destroy (s : JitState α) (this : α) : Option (JitState α) := do
  let desc ← s.desc this
  let s ← s.modifyIf desc.nextEntry fun next => { next with prevEntry := desc.prevEntry }
  let desc ← s.desc this
  let s ← s.modifyIf desc.prevEntry fun prev => { prev with nextEntry := desc.nextEntry }
  let desc ← s.desc this
  let firstEntry :=
    if s.descriptor.firstEntry = some this then desc.nextEntry else s.descriptor.firstEntry
  let s := { s with descriptor := { s.descriptor with firstEntry } }.notify .unregisterFn this
  some { s with memory := Function.update s.memory this none }

/-- `register_with_debugger`, with the file that it writes: `none` where it throws, and what
was made is destroyed. -/
def registerWithDebugger (s : JitState α) (this : α) (symfile : Option Bytes) :
    Option (JitState α) :=
  match symfile with
  | some symfile => (s.make this { symfile }).reg this
  | none => (s.make this {}).destroy this

end JitState

/-- What can happen. -/
inductive JitAction (α : Type u) where
  /-- `register_with_debugger`, where the new object is put at an address. -/
  | register (this : α) (symfile : Option Bytes)
  /-- The last pointer to an object goes. -/
  | release (this : α)
deriving DecidableEq, Repr

namespace JitState

variable {α : Type u} [DecidableEq α]

/-- One step. An object is put where there is none, and is destroyed once. -/
def step (s : JitState α) : JitAction α → Option (JitState α)
  | .register this symfile =>
    if (s.memory this).isSome then some s else s.registerWithDebugger this symfile
  | .release this => if (s.memory this).isSome then s.destroy this else some s

/-- Any steps. -/
def run (s : JitState α) (actions : List (JitAction α)) : Option (JitState α) :=
  actions.foldlM step s

end JitState

/-! ## What a debugger knows -/

section Debugger

variable {α : Type u} [DecidableEq α]

/-- The entries that a debugger knows, the newest first. -/
abbrev Known (α : Type u) := List (α × Bytes)

/-- A debugger that is called takes in or drops the entry. -/
def Known.notice (known : Known α) (n : Notice α) : Known α :=
  match n.descriptor.actionFlag, n.descriptor.relevantEntry with
  | .registerFn, some entry => (entry, n.symfile.getD []) :: known
  | .unregisterFn, some entry => known.filter (·.1 ≠ entry)
  | _, _ => known

/-- The links of the list. -/
def JitState.links (s : JitState α) : Links α where
  first := s.descriptor.firstEntry
  next a := (s.desc a).bind (·.nextEntry)
  prev a := (s.desc a).bind (·.prevEntry)

/-- A debugger that attaches reads the list, at most `n` entries of it. -/
def JitState.attach (s : JitState α) (n : ℕ) : Known α :=
  (s.links.walk n s.descriptor.firstEntry).map fun a =>
    (a, ((s.desc a).bind (·.symfile)).getD [])

/-- What is registered after a step. -/
def registeredStep (known : Known α) : JitAction α → Known α
  | .register this symfile =>
    match symfile with
    | some symfile =>
      if this ∈ known.map Prod.fst then known else (this, symfile) :: known
    | none => known
  | .release this => known.filter (·.1 ≠ this)

/-- What is registered after any steps, the newest first. -/
def registered (actions : List (JitAction α)) : Known α := actions.foldl registeredStep []

end Debugger

/-! ## What the methods do -/

namespace JitState

variable {α : Type u} [DecidableEq α] {s : JitState α} {this p : α}
  {f : JitCodeEntry α → JitCodeEntry α}

@[simp] theorem make_notices (s : JitState α) (this : α) (r : DebuggerRegistration α) :
    (s.make this r).notices = s.notices := rfl

theorem make_desc (s : JitState α) (this : α) (r : DebuggerRegistration α) :
    (s.make this r).desc this = some r.desc := by
  show (Function.update s.memory this _ this).map _ = _
  rw [Function.update_self]
  rfl

theorem make_desc_of_ne (s : JitState α) {a : α} (ha : a ≠ this) (r : DebuggerRegistration α) :
    (s.make this r).desc a = s.desc a := by
  show (Function.update s.memory this _ a).map _ = _
  rw [Function.update_of_ne ha]
  rfl

theorem modify_spec (hp : (s.desc p).isSome) (f : JitCodeEntry α → JitCodeEntry α) :
    ∃ s', s.modify p f = some s' ∧ s'.descriptor = s.descriptor ∧ s'.notices = s.notices ∧
      ∀ a, s'.desc a = if a = p then (s.desc a).map f else s.desc a := by
  obtain ⟨r, hr⟩ : ∃ r, s.memory p = some r := by
    rwa [desc, Option.isSome_map, Option.isSome_iff_exists] at hp
  refine ⟨{ s with memory := Function.update s.memory p (some { r with desc := f r.desc }) },
    by rw [modify, hr]; rfl, rfl, rfl, fun a => ?_⟩
  show (Function.update s.memory p _ a).map _ = _
  by_cases ha : a = p
  · subst ha
    rw [Function.update_self, if_pos rfl, desc, hr]
    rfl
  · rw [Function.update_of_ne ha, if_neg ha]
    rfl

theorem modifyIf_spec {p : Option α} (hp : ∀ a, p = some a → (s.desc a).isSome)
    (f : JitCodeEntry α → JitCodeEntry α) :
    ∃ s', s.modifyIf p f = some s' ∧ s'.descriptor = s.descriptor ∧ s'.notices = s.notices ∧
      ∀ a, s'.desc a = if p = some a then (s.desc a).map f else s.desc a := by
  cases p with
  | none => exact ⟨s, rfl, rfl, rfl, fun a => (if_neg (Option.some_ne_none a).symm).symm⟩
  | some p =>
    obtain ⟨s', hs', hdescriptor, hnotices, hdesc⟩ := modify_spec (hp p rfl) f
    refine ⟨s', hs', hdescriptor, hnotices, fun a => ?_⟩
    rw [hdesc]
    by_cases ha : a = p
    · rw [if_pos ha, if_pos (congrArg some ha.symm)]
    · rw [if_neg ha, if_neg fun hsame => ha (Option.some.inj hsame).symm]

/-- **`reg`** puts the entry in front. -/
theorem reg_spec {symfile : Bytes} (hthis : s.memory this = some { symfile })
    (hfirst : ∀ a, s.descriptor.firstEntry = some a → a ≠ this ∧ (s.desc a).isSome) :
    ∃ s', s.reg this = some s' ∧
      s'.descriptor = { s.descriptor with
        actionFlag := .registerFn
        relevantEntry := some this
        firstEntry := some this } ∧
      s'.notices = s.notices ++ [⟨s'.descriptor, some symfile⟩] ∧
      s'.desc this = some
        { nextEntry := s.descriptor.firstEntry, prevEntry := none, symfile := some symfile } ∧
      ∀ a, a ≠ this → s'.desc a =
        if s.descriptor.firstEntry = some a
        then (s.desc a).map fun desc => { desc with prevEntry := some this } else s.desc a := by
  have hdesc : s.desc this = some {} := by rw [desc, hthis]; rfl
  obtain ⟨s₁, h₁, hdescriptor₁, hnotices₁, hdesc₁⟩ := modify_spec (s := s) (p := this)
    (by rw [hdesc]; rfl) fun desc => { desc with symfile := some symfile }
  obtain ⟨s₂, h₂, hdescriptor₂, hnotices₂, hdesc₂⟩ := modifyIf_spec (s := s₁)
    (p := s.descriptor.firstEntry)
    (fun a ha => by rw [hdesc₁, if_neg (hfirst a ha).1]; exact (hfirst a ha).2)
    fun desc => { desc with prevEntry := some this }
  have hthis₂ : s₂.desc this = some { symfile := some symfile } := by
    rw [hdesc₂, if_neg fun hsame => (hfirst this hsame).1 rfl, hdesc₁, if_pos rfl, hdesc]
    rfl
  obtain ⟨s₃, h₃, hdescriptor₃, hnotices₃, hdesc₃⟩ := modifyIf_spec (s := s₂)
    (p := s.descriptor.firstEntry.map fun _ => this)
    (fun a ha => by
      obtain ⟨-, -, rfl⟩ := Option.map_eq_some_iff.mp ha
      rw [hthis₂]
      rfl)
    fun desc => { desc with nextEntry := s.descriptor.firstEntry }
  have hthis₃ : s₃.desc this = some
      { nextEntry := s.descriptor.firstEntry, symfile := some symfile } := by
    rw [hdesc₃, hthis₂]
    cases s.descriptor.firstEntry with
    | none => rfl
    | some first => exact if_pos rfl
  have hother₃ : ∀ a, a ≠ this → s₃.desc a = s₂.desc a := fun a ha => by
    rw [hdesc₃, if_neg fun hsame => ?_]
    obtain ⟨-, -, rfl⟩ := Option.map_eq_some_iff.mp hsame
    exact ha rfl
  refine ⟨({ s₃ with descriptor := { s₃.descriptor with firstEntry := some this } }).notify
    .registerFn this, ?_, ?_, ?_, hthis₃, fun a ha => ?_⟩
  · rw [reg, hthis]
    show (s.modify this _).bind _ = _
    rw [h₁]
    show (s₁.modifyIf s₁.descriptor.firstEntry _).bind _ = _
    rw [hdescriptor₁, h₂]
    show (s₂.modifyIf _ _).bind _ = _
    rw [h₃]
    rfl
  · rw [← hdescriptor₁, ← hdescriptor₂, ← hdescriptor₃]
    rfl
  · show s₃.notices ++ [⟨_, (s₃.desc this).bind _⟩] = _
    rw [hthis₃, hnotices₃, hnotices₂, hnotices₁]
    rfl
  · show s₃.desc a = _
    rw [hother₃ a ha, hdesc₂, hdesc₁, if_neg ha]

/-- **The destructor** takes the entry out of the list, if it is in it. -/
theorem destroy_spec {d : JitCodeEntry α} (hthis : s.desc this = some d)
    (hnext : ∀ a, d.nextEntry = some a → a ≠ this ∧ (s.desc a).isSome)
    (hprev : ∀ a, d.prevEntry = some a → a ≠ this ∧ (s.desc a).isSome) :
    ∃ s', s.destroy this = some s' ∧
      s'.descriptor = { s.descriptor with
        actionFlag := .unregisterFn
        relevantEntry := some this
        firstEntry :=
          if s.descriptor.firstEntry = some this then d.nextEntry
          else s.descriptor.firstEntry } ∧
      s'.notices = s.notices ++ [⟨s'.descriptor, d.symfile⟩] ∧
      s'.desc this = none ∧
      ∀ a, a ≠ this → s'.desc a = (s.desc a).map fun desc =>
        { desc with
          nextEntry := if d.prevEntry = some a then d.nextEntry else desc.nextEntry
          prevEntry := if d.nextEntry = some a then d.prevEntry else desc.prevEntry } := by
  obtain ⟨s₁, h₁, hdescriptor₁, hnotices₁, hdesc₁⟩ := modifyIf_spec (s := s) (p := d.nextEntry)
    (fun a ha => (hnext a ha).2) fun next => { next with prevEntry := d.prevEntry }
  have hthis₁ : s₁.desc this = some d := by
    rw [hdesc₁, if_neg fun hsame => (hnext this hsame).1 rfl, hthis]
  obtain ⟨s₂, h₂, hdescriptor₂, hnotices₂, hdesc₂⟩ := modifyIf_spec (s := s₁) (p := d.prevEntry)
    (fun a ha => by
      rw [hdesc₁]
      split
      · rw [Option.isSome_map]
        exact (hprev a ha).2
      · exact (hprev a ha).2)
    fun prev => { prev with nextEntry := d.nextEntry }
  have hthis₂ : s₂.desc this = some d := by
    rw [hdesc₂, if_neg fun hsame => (hprev this hsame).1 rfl, hthis₁]
  have hdestroy : s.destroy this = some
      { ({ s₂ with descriptor := { s₂.descriptor with
          firstEntry := if s₂.descriptor.firstEntry = some this then d.nextEntry
            else s₂.descriptor.firstEntry } }.notify .unregisterFn this) with
        memory := Function.update s₂.memory this none } := by
    rw [destroy, hthis]
    show (s.modifyIf d.nextEntry _).bind _ = _
    rw [h₁]
    show (s₁.desc this).bind _ = _
    rw [hthis₁]
    show (s₁.modifyIf d.prevEntry _).bind _ = _
    rw [h₂]
    show (s₂.desc this).bind _ = _
    rw [hthis₂]
    rfl
  refine ⟨_, hdestroy, ?_, ?_, ?_, fun a ha => ?_⟩
  · rw [← hdescriptor₁, ← hdescriptor₂]
    rfl
  · show s₂.notices ++ [⟨_, (s₂.desc this).bind _⟩] = _
    rw [hthis₂, hnotices₂, hnotices₁]
    rfl
  · show (Function.update s₂.memory this none this).map _ = _
    rw [Function.update_self]
    rfl
  · show (Function.update s₂.memory this none a).map _ = _
    rw [Function.update_of_ne ha]
    show s₂.desc a = _
    rw [hdesc₂, hdesc₁]
    cases s.desc a with
    | none => split <;> split <;> rfl
    | some e => split <;> split <;> rfl

end JitState

/-! ## Runs -/

section Runs

variable {α : Type u} [DecidableEq α] {s : JitState α} {known : Known α} {this : α}

/-- What holds between any two steps: the objects are those that are registered, and the
list and the calls both tell a debugger so. -/
structure JitInv (s : JitState α) (known : Known α) : Prop where
  lists : s.links.Lists (known.map Prod.fst)
  live : ∀ a, (s.desc a).isSome ↔ a ∈ known.map Prod.fst
  symfile : ∀ p ∈ known, (s.desc p.1).bind (·.symfile) = some p.2
  notices : s.notices.foldl Known.notice [] = known

theorem jitInv_start : JitInv ({} : JitState α) [] :=
  ⟨Links.lists_nil _ _, fun _ => ⟨nofun, nofun⟩, nofun, rfl⟩

theorem filter_of_not_mem (h : this ∉ known.map Prod.fst) :
    known.filter (·.1 ≠ this) = known :=
  List.filter_eq_self.mpr fun _ hp => decide_eq_true fun hsame =>
    h (hsame ▸ List.mem_map_of_mem hp)

/-- **A registration.** -/
theorem JitInv.register (h : JitInv s known) (hthis : this ∉ known.map Prod.fst)
    (symfile : Bytes) :
    ∃ s', s.registerWithDebugger this (some symfile) = some s' ∧
      JitInv s' ((this, symfile) :: known) := by
  have hfirst : ∀ a, s.descriptor.firstEntry = some a → a ∈ known.map Prod.fst := fun a ha =>
    List.mem_of_mem_head? (h.lists.first.symm.trans ha)
  have hne : ∀ a ∈ known.map Prod.fst, a ≠ this := fun a ha hsame => hthis (hsame ▸ ha)
  obtain ⟨s', hs', hdescriptor', hnotices', hthis', hother'⟩ := JitState.reg_spec
    (s := s.make this { symfile }) (Function.update_self ..)
    (fun a ha => ⟨hne a (hfirst a ha), by
      rw [s.make_desc_of_ne (hne a (hfirst a ha))]
      exact (h.live a).mpr (hfirst a ha)⟩)
  have hdesc' : ∀ a, a ≠ this → s'.desc a =
      if s.links.first = some a
      then (s.desc a).map fun desc => { desc with prevEntry := some this } else s.desc a :=
    fun a ha => by
      rw [hother' a ha, s.make_desc_of_ne ha]
      rfl
  refine ⟨s', hs', ⟨?_, fun a => ?_, fun p hp => ?_, ?_⟩⟩
  · refine h.lists.push hthis (congrArg JitDescriptor.firstEntry hdescriptor') ?_ ?_
      (fun b hb => ?_) (fun b hb => ?_) fun b hb hnot => ?_
    · show (s'.desc this).bind _ = _
      rw [hthis']
      rfl
    · show (s'.desc this).bind _ = _
      rw [hthis']
      rfl
    · have hlive := (h.live b).mpr (hfirst b hb)
      obtain ⟨e, he⟩ := Option.isSome_iff_exists.mp hlive
      show (s'.desc b).bind _ = _
      rw [hdesc' b (hne b (hfirst b hb)), if_pos hb, he]
      rfl
    · show (s'.desc b).bind _ = (s.desc b).bind _
      rw [hdesc' b (hne b hb)]
      split
      · cases s.desc b <;> rfl
      · rfl
    · show (s'.desc b).bind _ = (s.desc b).bind _
      rw [hdesc' b (hne b hb), if_neg hnot]
  · rw [List.map_cons, List.mem_cons]
    by_cases ha : a = this
    · rw [ha, hthis']
      exact ⟨fun _ => .inl rfl, fun _ => rfl⟩
    · rw [hdesc' a ha, ← h.live a]
      split
      · rw [Option.isSome_map]
        exact ⟨.inr, fun hor => hor.resolve_left ha⟩
      · exact ⟨.inr, fun hor => hor.resolve_left ha⟩
  · rcases List.mem_cons.mp hp with rfl | hp
    · rw [hthis']
      rfl
    · have hp' := hne p.1 (List.mem_map_of_mem hp)
      rw [← h.symfile p hp, hdesc' p.1 hp']
      split
      · cases s.desc p.1 <;> rfl
      · rfl
  · rw [hnotices', JitState.make_notices, List.foldl_append, h.notices, hdescriptor']
    rfl

/-- **An exception**: the entry is not in the list, and the debugger does not know it. -/
theorem JitInv.discard (h : JitInv s known) (hthis : this ∉ known.map Prod.fst) :
    ∃ s', s.registerWithDebugger this none = some s' ∧ JitInv s' known := by
  have hne : ∀ a ∈ known.map Prod.fst, a ≠ this := fun a ha hsame => hthis (hsame ▸ ha)
  obtain ⟨s', hs', hdescriptor', hnotices', hthis', hdesc'⟩ := JitState.destroy_spec
    (s.make_desc this {}) nofun nofun
  have hsame : ∀ a, a ≠ this → s'.desc a = s.desc a := fun a ha => by
    rw [hdesc' a ha, s.make_desc_of_ne ha]
    cases s.desc a <;> rfl
  refine ⟨s', hs', ⟨h.lists.congr ?_ (fun a ha => ?_) fun a ha => ?_, fun a => ?_, fun p hp => ?_,
    ?_⟩⟩
  · show s'.descriptor.firstEntry = s.descriptor.firstEntry
    rw [hdescriptor']
    exact if_neg fun hfirst => hthis (List.mem_of_mem_head? (h.lists.first.symm.trans hfirst))
  · show (s'.desc a).bind _ = _
    rw [hsame a (hne a ha)]
    rfl
  · show (s'.desc a).bind _ = _
    rw [hsame a (hne a ha)]
    rfl
  · by_cases ha : a = this
    · rw [ha, hthis']
      exact ⟨nofun, fun hmem => absurd hmem hthis⟩
    · rw [hsame a ha]
      exact h.live a
  · rw [hsame p.1 (hne p.1 (List.mem_map_of_mem hp))]
    exact h.symfile p hp
  · rw [hnotices', JitState.make_notices, List.foldl_append, h.notices, hdescriptor']
    exact filter_of_not_mem hthis

/-- **The last pointer goes.** -/
theorem JitInv.release (h : JitInv s known) (hthis : this ∈ known.map Prod.fst) :
    ∃ s', s.destroy this = some s' ∧ JitInv s' (known.filter (·.1 ≠ this)) := by
  obtain ⟨d, hd⟩ := Option.isSome_iff_exists.mp ((h.live this).mpr hthis)
  have hnextLink : s.links.next this = d.nextEntry := by
    show (s.desc this).bind _ = _
    rw [hd]
    rfl
  have hprevLink : s.links.prev this = d.prevEntry := by
    show (s.desc this).bind _ = _
    rw [hd]
    rfl
  have hlive : ∀ a, d.nextEntry = some a ∨ d.prevEntry = some a →
      a ≠ this ∧ (s.desc a).isSome := fun a ha => by
    rw [← hnextLink, ← hprevLink] at ha
    obtain ⟨hne, hmem⟩ := h.lists.neighbours hthis ha
    exact ⟨hne, (h.live a).mpr hmem⟩
  obtain ⟨s', hs', hdescriptor', hnotices', hthis', hdesc'⟩ := JitState.destroy_spec hd
    (fun a ha => hlive a (.inl ha)) (fun a ha => hlive a (.inr ha))
  obtain ⟨file, hp⟩ : ∃ file, (this, file) ∈ known := by simpa using hthis
  obtain ⟨before, behind, rfl⟩ := List.append_of_mem hp
  have hlists := h.lists
  rw [List.map_append, List.map_cons] at hlists
  obtain ⟨-, hnodup, hdisjoint⟩ := List.nodup_append.mp hlists.nodup
  have hne : ∀ a ∈ before.map Prod.fst ++ behind.map Prod.fst, a ≠ this := by
    intro a ha hsame
    rcases List.mem_append.mp ha with ha | ha
    · exact hdisjoint a ha this (List.mem_cons_self ..) hsame
    · exact (List.nodup_cons.mp hnodup).1 (hsame ▸ ha)
  -- only the entry itself goes
  have hrest : (before ++ (this, file) :: behind).filter (·.1 ≠ this) = before ++ behind := by
    rw [List.filter_append, List.filter_cons_of_neg (by simp),
      filter_of_not_mem fun hmem => hne this (List.mem_append_left _ hmem) rfl,
      filter_of_not_mem fun hmem => hne this (List.mem_append_right _ hmem) rfl]
  have hthisFirst := h.lists.first_eq_some_iff hthis
  have hfirst : s'.links.first =
      if s.descriptor.firstEntry = some this then d.nextEntry else s.descriptor.firstEntry :=
    congrArg JitDescriptor.firstEntry hdescriptor'
  have hnext' : ∀ a, a ≠ this → (s.desc a).isSome → s'.links.next a =
      if d.prevEntry = some a then d.nextEntry else s.links.next a := fun a ha hlive => by
    obtain ⟨e, he⟩ := Option.isSome_iff_exists.mp hlive
    show (s'.desc a).bind _ = if _ then _ else (s.desc a).bind _
    rw [hdesc' a ha, he]
    rfl
  have hprev' : ∀ a, a ≠ this → (s.desc a).isSome → s'.links.prev a =
      if d.nextEntry = some a then d.prevEntry else s.links.prev a := fun a ha hlive => by
    obtain ⟨e, he⟩ := Option.isSome_iff_exists.mp hlive
    show (s'.desc a).bind _ = if _ then _ else (s.desc a).bind _
    rw [hdesc' a ha, he]
    rfl
  have hothers : ∀ a ∈ before.map Prod.fst ++ behind.map Prod.fst, (s.desc a).isSome := by
    intro a ha
    rw [h.live a, List.map_append, List.map_cons]
    exact List.mem_append.mpr ((List.mem_append.mp ha).imp_right (List.mem_cons_of_mem this))
  rw [hrest]
  refine ⟨s', hs', ⟨?_, fun a => ?_, fun p hp => ?_, ?_⟩⟩
  · rw [List.map_append]
    refine hlists.unlink ?_ ?_ (fun hprev => ?_) (fun b hb hnot => ?_) fun b hb hnot => ?_
    · rw [hprevLink, hnextLink]
      cases hprev : d.prevEntry with
      | none => exact hfirst.trans (if_pos (hthisFirst.mpr (hprevLink.trans hprev)))
      | some p =>
        obtain ⟨hp, hlive⟩ := hlive p (.inr hprev)
        exact (hnext' p hp hlive).trans (if_pos hprev)
    · rw [hprevLink, hnextLink]
      cases hnext : d.nextEntry with
      | none => trivial
      | some n =>
        obtain ⟨hn, hlive⟩ := hlive n (.inl hnext)
        exact (hprev' n hn hlive).trans (if_pos hnext)
    · exact hfirst.trans (if_neg fun hsame => hprev (hthisFirst.mp hsame))
    · rw [hprevLink] at hnot
      rw [hnext' b (hne b hb) (hothers b hb), if_neg hnot]
    · rw [hnextLink] at hnot
      rw [hprev' b (hne b hb) (hothers b hb), if_neg hnot]
  · by_cases ha : a = this
    · rw [ha, hthis', List.map_append]
      exact ⟨nofun, fun hmem => absurd rfl (hne this hmem)⟩
    · rw [hdesc' a ha, Option.isSome_map, h.live a, List.map_append, List.map_append, List.map_cons,
        List.mem_append, List.mem_append, List.mem_cons, or_iff_right ha]
  · have hmem : p.1 ∈ before.map Prod.fst ++ behind.map Prod.fst := by
      rw [← List.map_append]
      exact List.mem_map_of_mem hp
    rw [← h.symfile p (List.mem_append.mpr ((List.mem_append.mp hp).imp_right
      (List.mem_cons_of_mem _))), hdesc' p.1 (hne p.1 hmem)]
    cases s.desc p.1 <;> rfl
  · rw [hnotices', List.foldl_append, h.notices, hdescriptor']
    exact hrest

/-- **One step.** -/
theorem JitInv.step (h : JitInv s known) (action : JitAction α) :
    ∃ s', s.step action = some s' ∧ JitInv s' (registeredStep known action) := by
  have hlive : ∀ a, (s.memory a).isSome ↔ a ∈ known.map Prod.fst := fun a => by
    rw [← h.live a, JitState.desc, Option.isSome_map]
  cases action with
  | register this symfile =>
    rw [JitState.step]
    by_cases hthis : this ∈ known.map Prod.fst
    · refine ⟨s, if_pos ((hlive this).mpr hthis), ?_⟩
      cases symfile with
      | some symfile => rwa [registeredStep, if_pos hthis]
      | none => exact h
    · rw [if_neg fun hmem => hthis ((hlive this).mp hmem)]
      cases symfile with
      | some symfile =>
        rw [registeredStep, if_neg hthis]
        exact h.register hthis symfile
      | none => exact h.discard hthis
  | release this =>
    rw [JitState.step, registeredStep]
    by_cases hthis : this ∈ known.map Prod.fst
    · rw [if_pos ((hlive this).mpr hthis)]
      exact h.release hthis
    · refine ⟨s, if_neg fun hmem => hthis ((hlive this).mp hmem), ?_⟩
      rwa [filter_of_not_mem hthis]

/-- **Any steps.** -/
theorem JitInv.run (h : JitInv s known) (actions : List (JitAction α)) :
    ∃ s', s.run actions = some s' ∧ JitInv s' (actions.foldl registeredStep known) := by
  induction actions generalizing s known with
  | nil => exact ⟨s, rfl, h⟩
  | cons action actions ih =>
    obtain ⟨s₁, hstep, h₁⟩ := h.step action
    obtain ⟨s', hrun, h'⟩ := ih h₁
    refine ⟨s', ?_, h'⟩
    rw [JitState.run, List.foldlM_cons, hstep]
    exact hrun

/-- What a debugger reads when it attaches. -/
theorem JitInv.attach (h : JitInv s known) (n : ℕ) : s.attach (known.length + n) = known := by
  have hwalk : s.links.walk (known.length + n) s.descriptor.firstEntry = known.map Prod.fst :=
    h.lists.walk (by rw [List.length_map]; exact Nat.le_add_right _ _)
  rw [JitState.attach, hwalk, List.map_map]
  refine (List.map_congr_left fun p hp => ?_).trans (List.map_id known)
  show (p.1, ((s.desc p.1).bind (·.symfile)).getD []) = p
  rw [h.symfile p hp]
  rfl

/-- **Debuggers agree**: after any registrations, exceptions and releases, no object that is
gone has been accessed, an object is there if and only if it is registered, and a debugger
that attaches finds in the list what one knows that has been called at each change: what is
registered, the newest first. -/
theorem run_registered (actions : List (JitAction α)) :
    ∃ s, ({} : JitState α).run actions = some s ∧
      (∀ a, (s.memory a).isSome ↔ a ∈ (registered actions).map Prod.fst) ∧
      s.notices.foldl Known.notice [] = registered actions ∧
      ∀ n, s.attach ((registered actions).length + n) = registered actions := by
  obtain ⟨s, hrun, h⟩ := jitInv_start.run actions
  refine ⟨s, hrun, fun a => ?_, h.notices, h.attach⟩
  rw [registered, ← h.live a, JitState.desc, Option.isSome_map]

/-- The second of three objects goes, and one is thrown away. -/
example : registered [.register 1 (some [10]), .register 2 (some [20]), .register 3 (some [30]),
    .release 2, .register 4 none] = [(3, [30]), (1, [10])] := by decide

end Runs

end Microchain.DebugEosVm
