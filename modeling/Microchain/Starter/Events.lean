import Microchain.Eosio.Codec
import Microchain.Starter.MicroChain
import Mathlib.Data.List.Induction

/-!
# The contract's events (`events.cpp`, `starter.cpp`)

`push_event` collects serialized events in a global buffer and calls `send_events` only
when the next one might not fit. Nothing else calls `send_events`, so the events since
the last full batch stay in the buffer, and the instance ends with the action.

- `pushEvents_batches`: **what has been sent** are whole batches, in order, that the
  micro chain decodes; what has not is the rest.
- `hi_sends_iff`: everything has been sent only when there was nothing to send.
-/

namespace Microchain.Starter

open Eosio

/-! ## `events.cpp` -/

/-- An inline action. -/
structure InlineAction where
  account : Name
  name : Name
  authorization : List (Name × Name)
  data : Bytes
deriving DecidableEq, Repr

/-- The globals of the contract's instance, and the inline actions it has sent. -/
structure ContractInstance where
  serializedEvents : Bytes := []
  numEvents : UInt32 := 0
  sent : List InlineAction := []
deriving DecidableEq, Repr

/-- `to_bin(const event&)`: the index in the variant, then the fields. -/
def eventToBin (e : GreetingEvent) : Bytes :=
  varuint32ToBin 0 ++ nameToBin e.account ++ bytesToBin e.message

/-- `send_events` -/
def sendEvents (self : Name) (s : ContractInstance) : ContractInstance :=
  if s.numEvents ≠ 0 then
    { serializedEvents := []
      numEvents := 0
      sent := s.sent ++ [{
        account := Name.ofString "eosio.null"
        name := Name.ofString "chain.events"
        authorization := [(self, Name.ofString "active")]
        data := varuint32ToBin s.numEvents ++ s.serializedEvents }] }
  else s

/-- The size of an action's data that nodeos accepts. -/
def maxActionSize : Nat := 4 * 1024

/-- `push_event` -/
def pushEvent (self : Name) (s : ContractInstance) (e : GreetingEvent) : ContractInstance :=
  let bin := eventToBin e
  let estSize := 5 + s.serializedEvents.length + bin.length
  let s := if maxActionSize < estSize then sendEvents self s else s
  { s with
    serializedEvents := s.serializedEvents ++ bin
    numEvents := s.numEvents + 1 }

/-- The calls of `push_event` in an action. -/
def pushEvents (self : Name) (events : List GreetingEvent) : ContractInstance :=
  events.foldl (pushEvent self) {}

/-- `starter_contract::hi`, its checks and its event. -/
def hi (requireAuth : Name → Bool) (self : Name) (s : ContractInstance) (account : Name)
    (message : Bytes) : Except String ContractInstance :=
  if requireAuth account then
    if message.length ≤ 256 then .ok (pushEvent self s ⟨account, message⟩)
    else .error "message is too long"
  else .error "missing authority"

/-! ## What is sent -/

/-- An event that an action can hold. -/
def Fits (e : GreetingEvent) : Prop := 5 + (eventToBin e).length ≤ maxActionSize

/-- The data of an action is a vector of these events. -/
def DecodesTo (action : InlineAction) (batch : List GreetingEvent) : Prop :=
  vectorFromBin eventFromBin action.data = .ok (batch, [])

/-- What has been sent are these events, once each, in order, in actions that are not
too large and decode. -/
def SendsExactly (events : List GreetingEvent) (s : ContractInstance) : Prop :=
  (∀ action ∈ s.sent, action.data.length ≤ maxActionSize) ∧
    ∃ batches, List.Forall₂ DecodesTo s.sent batches ∧ batches.flatten = events

theorem eventFromBin_toBin {e : GreetingEvent} (h : Fits e) (s : Bytes) :
    eventFromBin (eventToBin e ++ s) = .ok (e, s) := by
  have hmessage : Sized e.message := by
    have hlen : e.message.length ≤ (eventToBin e).length := by
      rw [eventToBin, bytesToBin, vectorToBin, List.flatMap_singleton']
      simp only [List.length_append]
      omega
    rw [Fits, maxActionSize] at h
    exact Nat.lt_of_le_of_lt (show e.message.length ≤ 4 * 1024 by omega) (by decide)
  rw [eventFromBin, eventToBin, List.append_assoc, List.append_assoc, varuint32FromBin_toBin]
  show (nameStringFromBin (nameToBin e.account ++ (bytesToBin e.message ++ s))).bind _ = _
  have hpair : nameStringFromBin (nameToBin e.account ++ (bytesToBin e.message ++ s)) =
      .ok ((e.account, e.message), s) := by
    rw [nameStringFromBin, nameFromBin_toBin]
    show (stringFromBin (bytesToBin e.message ++ s)).bind _ = _
    rw [stringFromBin_toBin hmessage]
    rfl
  rw [hpair]
  rfl

theorem varuint32ToBin_length_le (n : UInt32) : (varuint32ToBin n).length ≤ 5 := by
  have hloop : ∀ rounds val, (varuint32ToBinLoop rounds val).length ≤ rounds := by
    intro rounds
    induction rounds with
    | zero => exact fun val => Nat.le_refl 0
    | succ rounds ih =>
      intro val
      rw [varuint32ToBinLoop]
      split
      · exact Nat.succ_le_succ (Nat.zero_le rounds)
      · exact Nat.succ_le_succ (ih _)
  exact hloop 5 n

/-- An event takes at least one byte. -/
theorem eventToBin_length_pos (e : GreetingEvent) : 0 < (eventToBin e).length := by
  rw [eventToBin, List.append_assoc, List.length_append]
  exact Nat.add_pos_left (by decide) _

theorem length_le_flatMap (events : List GreetingEvent) :
    events.length ≤ (events.flatMap eventToBin).length := by
  induction events with
  | nil => exact Nat.le_refl 0
  | cons e events ih =>
    have := eventToBin_length_pos e
    rw [List.flatMap_cons, List.length_append, List.length_cons]
    omega

/-- The buffer holds `pending`, and `batches` have been sent. -/
structure Buffers (s : ContractInstance) (batches : List (List GreetingEvent))
    (pending : List GreetingEvent) : Prop where
  sent : List.Forall₂ DecodesTo s.sent batches
  size : ∀ action ∈ s.sent, action.data.length ≤ maxActionSize
  serialized : s.serializedEvents = pending.flatMap eventToBin
  num : s.numEvents = UInt32.ofNat pending.length
  room : 5 + s.serializedEvents.length ≤ maxActionSize
  fits : ∀ e ∈ pending, Fits e

theorem Buffers.sized {s : ContractInstance} {batches : List (List GreetingEvent)}
    {pending : List GreetingEvent} (h : Buffers s batches pending) : Sized pending := by
  have hlen := length_le_flatMap pending
  have hroom := h.room
  rw [h.serialized, maxActionSize] at hroom
  exact Nat.lt_of_le_of_lt (show pending.length ≤ 4 * 1024 by omega) (by decide)

/-- **Sending** empties the buffer. -/
theorem Buffers.sendEvents {s : ContractInstance} {batches : List (List GreetingEvent)}
    {pending : List GreetingEvent} (h : Buffers s batches pending) (self : Name) :
    ∃ batches', Buffers (sendEvents self s) batches' [] ∧
      batches'.flatten = batches.flatten ++ pending := by
  have hnum : s.numEvents = 0 ↔ pending = [] := by
    rw [h.num, ← UInt32.toNat_inj, h.sized.toNat]
    exact List.length_eq_zero_iff
  rw [Starter.sendEvents]
  split
  · next hsome =>
    have hdata : (varuint32ToBin s.numEvents ++ s.serializedEvents).length ≤ maxActionSize := by
      have := varuint32ToBin_length_le s.numEvents
      have := h.room
      rw [List.length_append]
      omega
    refine ⟨batches ++ [pending], ⟨?_, ?_, rfl, rfl, ?_, nofun⟩, by simp⟩
    · refine List.rel_append h.sent (.cons ?_ .nil)
      have hvector := vectorFromBin_toBin h.sized
        (fun e he s => eventFromBin_toBin (h.fits e he) s) []
      rw [List.append_nil, vectorToBin, ← h.num, ← h.serialized] at hvector
      exact hvector
    · intro action haction
      rcases List.mem_append.mp haction with hold | hnew
      · exact h.size action hold
      · rw [List.mem_singleton.mp hnew]
        exact hdata
    · have hroom : 5 + ([] : Bytes).length ≤ maxActionSize := by decide
      exact hroom
  · next hzero =>
    obtain rfl := hnum.mp (not_not.mp hzero)
    exact ⟨batches, h, (List.append_nil _).symm⟩

/-- **One event** more: it is in the buffer afterwards. -/
theorem Buffers.pushEvent {s : ContractInstance} {batches : List (List GreetingEvent)}
    {pending : List GreetingEvent} (h : Buffers s batches pending) (self : Name)
    {e : GreetingEvent} (he : Fits e) :
    ∃ batches' pending', Buffers (pushEvent self s e) batches' (pending' ++ [e]) ∧
      batches'.flatten ++ pending' = batches.flatten ++ pending := by
  -- the buffer that the event goes into has room for it
  have hroom : ∃ batches' pending', ∃ s', s' = (if maxActionSize <
      5 + s.serializedEvents.length + (eventToBin e).length then Starter.sendEvents self s else s) ∧
      Buffers s' batches' pending' ∧
      5 + s'.serializedEvents.length + (eventToBin e).length ≤ maxActionSize ∧
      batches'.flatten ++ pending' = batches.flatten ++ pending := by
    split
    · obtain ⟨batches', hempty, hflat⟩ := h.sendEvents self
      refine ⟨batches', [], _, rfl, hempty, ?_, by rw [List.append_nil, hflat]⟩
      rw [hempty.serialized]
      simpa [Fits, Nat.add_comm] using he
    · next hfits => exact ⟨batches, pending, s, rfl, h, Nat.le_of_not_lt hfits, rfl⟩
  obtain ⟨batches', pending', s', hs', hbuffers, hle, hflat⟩ := hroom
  refine ⟨batches', pending', ?_, hflat⟩
  rw [Starter.pushEvent, ← hs']
  refine ⟨hbuffers.sent, hbuffers.size, ?_, ?_, ?_, ?_⟩
  · dsimp only
    rw [hbuffers.serialized, List.flatMap_append, List.flatMap_singleton]
  · dsimp only
    rw [hbuffers.num, List.length_append, List.length_singleton, UInt32.ofNat_add]
    rfl
  · dsimp only
    rw [List.length_append]
    omega
  · intro x hx
    rcases List.mem_append.mp hx with hold | hnew
    · exact hbuffers.fits x hold
    · rw [List.mem_singleton.mp hnew]
      exact he

/-- **What has been sent, and what has not**, after any calls of `push_event`: whole
batches in order, and a rest that is empty only when there was no call. -/
theorem pushEvents_batches (self : Name) {events : List GreetingEvent}
    (hfits : ∀ e ∈ events, Fits e) :
    ∃ batches pending, Buffers (pushEvents self events) batches pending ∧
      batches.flatten ++ pending = events ∧ (events ≠ [] → pending ≠ []) := by
  induction events using List.reverseRecOn with
  | nil =>
    have hroom : 5 + ([] : Bytes).length ≤ maxActionSize := by decide
    exact ⟨[], [], ⟨.nil, nofun, rfl, rfl, hroom, nofun⟩, rfl, fun h => absurd rfl h⟩
  | append_singleton events e ih =>
    obtain ⟨batches, pending, hbuffers, hflat, -⟩ := ih fun e he => hfits e (by simp [he])
    obtain ⟨batches', pending', hbuffers', hflat'⟩ := hbuffers.pushEvent self (hfits e (by simp))
    refine ⟨batches', pending' ++ [e], ?_, ?_, fun _ => by simp⟩
    · rw [pushEvents, List.foldl_append]
      exact hbuffers'
    · rw [← List.append_assoc, hflat', hflat]

/-- The batches of an action are what it decodes to. -/
theorem batches_unique {sent : List InlineAction} {batches batches' : List (List GreetingEvent)}
    (h : List.Forall₂ DecodesTo sent batches) (h' : List.Forall₂ DecodesTo sent batches') :
    batches = batches' := by
  induction h generalizing batches' with
  | nil =>
    cases h'
    rfl
  | cons hdecodes _ ih =>
    cases h' with
    | cons hdecodes' h' =>
      have heq := Except.ok.inj (hdecodes.symm.trans hdecodes')
      rw [(Prod.mk.inj heq).1, ih h']

/-- **Everything is sent only when there is nothing to send**: for the calls of
`push_event` that an action makes, and so for `hi`, which makes one when it does not
fail. -/
theorem hi_sends_iff (self : Name) :
    (∀ events : List GreetingEvent, (∀ e ∈ events, Fits e) →
      (SendsExactly events (pushEvents self events) ↔ events = [])) ∧
    ∀ (requireAuth : Name → Bool) (account : Name) (message : Bytes) (s : ContractInstance),
      hi requireAuth self {} account message = .ok s →
        s = pushEvents self [⟨account, message⟩] ∧ ¬ SendsExactly [⟨account, message⟩] s := by
  have hiff : ∀ events : List GreetingEvent, (∀ e ∈ events, Fits e) →
      (SendsExactly events (pushEvents self events) ↔ events = []) := by
    intro events hfits
    obtain ⟨batches, pending, hbuffers, hflat, hpending⟩ := pushEvents_batches self hfits
    constructor
    · rintro ⟨-, batches', hdecodes, hall⟩
      obtain rfl := batches_unique hbuffers.sent hdecodes
      by_contra hne
      rw [hall] at hflat
      exact hpending hne (List.append_right_eq_self.mp hflat)
    · rintro rfl
      exact ⟨hbuffers.size, batches, hbuffers.sent, (List.append_eq_nil_iff.mp hflat).1⟩
  refine ⟨hiff, fun requireAuth account message s hrun => ?_⟩
  rw [hi] at hrun
  split at hrun
  · split at hrun
    · next hlen =>
      obtain rfl := Except.ok.inj hrun
      refine ⟨rfl, fun hsends => ?_⟩
      have hfits : Fits ⟨account, message⟩ := by
        have h₁ := varuint32ToBin_length_le 0
        have h₂ := varuint32ToBin_length_le (UInt32.ofNat message.length)
        have h₃ : (nameToBin account).length = 8 := rfl
        rw [Fits, maxActionSize, eventToBin, bytesToBin, vectorToBin, List.flatMap_singleton']
        simp only [List.length_append]
        omega
      have hnil := (hiff [⟨account, message⟩] (by simpa using hfits)).mp hsends
      cases hnil
    · cases hrun
  · cases hrun

/-- An event that an action can hold. -/
theorem fits_example : Fits ⟨Name.ofString "bob", [65]⟩ := by
  show 5 + (eventToBin ⟨Name.ofString "bob", [65]⟩).length ≤ maxActionSize
  decide +kernel

theorem hi_sends_iff_example :
    (SendsExactly [⟨Name.ofString "bob", [65]⟩]
      (pushEvents (Name.ofString "starter") [⟨Name.ofString "bob", [65]⟩]) ↔
        [(⟨Name.ofString "bob", [65]⟩ : GreetingEvent)] = []) ∧
    ¬ SendsExactly [⟨Name.ofString "bob", [65]⟩]
      (pushEvents (Name.ofString "starter") [⟨Name.ofString "bob", [65]⟩]) := by
  obtain ⟨hevents, hhi⟩ := hi_sends_iff (Name.ofString "starter")
  constructor
  · exact hevents _ fun e he => List.mem_singleton.mp he ▸ fits_example
  · exact (hhi (fun _ => true) (Name.ofString "bob") [65] _ rfl).2

/-- After a `hi` of `bob` nothing has been sent. -/
theorem hi_keeps_event : ¬ ∀ (self : Name) (events : List GreetingEvent), (∀ e ∈ events, Fits e) →
    SendsExactly events (pushEvents self events) := by
  intro h
  have hfits : ∀ e ∈ [(⟨Name.ofString "bob", [65]⟩ : GreetingEvent)], Fits e := by
    intro e he
    rw [List.mem_singleton.mp he]
    exact fits_example
  obtain ⟨-, batches, hdecodes, hflat⟩ := h (Name.ofString "starter") _ hfits
  have hsent : (pushEvents (Name.ofString "starter")
    [⟨Name.ofString "bob", [65]⟩]).sent = [] := by decide +kernel
  rw [hsent] at hdecodes
  cases hdecodes
  cases hflat

end Microchain.Starter
