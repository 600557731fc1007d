import Microchain.Box.DfuseHistory
import Microchain.Box.DfuseStream

/-!
# Restarts and lost streams do not show

What the receiver keeps of the messages (`pushed`) determines the storage and what is held
back, so a process that starts on the file of an earlier one is where that one was when it
wrote the file, and its subscription goes on behind the last message of the file. The
messages that are not kept change nothing, so it does not matter that some of them come
again.

- `DfuseInv`: what holds between any two steps;
- `run_uninterrupted`: after every run, a receiver that is subscribed is where one without
  interruptions would be;
- `run_saved`: a restart never fails and takes at most ten of the kept messages back.
-/

namespace Microchain.Box

open Eosio Subchain Starter

/-! ## The messages that are kept -/

/-- Keep a message, if it is pushed. -/
def keep (journal : List StreamTrx) (trx : StreamTrx) : List StreamTrx :=
  if pushes journal.getLast? trx then journal ++ [trx] else journal

/-- The messages that are kept. -/
def pushed (msgs : List StreamTrx) : List StreamTrx := msgs.foldl keep []

section Pushed

variable {log : List StreamTrx} {n : Nat}

theorem pushed_take_succ {trx : StreamTrx} (h : log[n]? = some trx) :
    pushed (log.take (n + 1)) = keep (pushed (log.take n)) trx := by
  obtain ⟨hn, rfl⟩ := List.getElem?_eq_some_iff.mp h
  rw [pushed, List.take_succ_eq_append_getElem hn, List.foldl_append]
  rfl

theorem pushed_take_of_none (h : log[n]? = none) :
    pushed (log.take (n + 1)) = pushed (log.take n) := by
  have hlen := List.getElem?_eq_none_iff.mp h
  rw [List.take_of_length_le (Nat.le_succ_of_le hlen), List.take_of_length_le hlen]

/-- The last message that is kept, and nothing is kept behind it. -/
theorem pushed_getLast {last : StreamTrx} (h : (pushed (log.take n)).getLast? = some last) :
    ∃ m, log[m]? = some last ∧ pushed (log.take (m + 1)) = pushed (log.take n) := by
  induction n with
  | zero => cases h
  | succ n ih =>
    cases htrx : log[n]? with
    | none =>
      rw [pushed_take_of_none htrx] at h ⊢
      exact ih h
    | some trx =>
      have hnext := pushed_take_succ htrx
      by_cases hpushes : pushes (pushed (log.take n)).getLast? trx
      · rw [keep, if_pos hpushes] at hnext
        rw [hnext, List.getLast?_concat] at h
        obtain rfl := Option.some.inj h
        exact ⟨n, htrx, rfl⟩
      · rw [keep, if_neg hpushes] at hnext
        rw [hnext] at h ⊢
        exact ih h

/-- What dfuse promises of its cursors: each belongs to one message. -/
structure Cursors (log : List StreamTrx) : Prop where
  nodup : (log.map (·.cursor)).Nodup
  ne : ∀ trx ∈ log, trx.cursor ≠ ""

/-- **A subscription from the last cursor that is kept** goes on where nothing is lost or
comes twice. -/
theorem pushed_resume (h : Cursors log) (n : Nat) :
    pushed (log.take (resume log (((pushed (log.take n)).getLast?.map (·.cursor)).getD ""))) =
      pushed (log.take n) := by
  cases hlast : (pushed (log.take n)).getLast? with
  | none =>
    rw [List.getLast?_eq_none_iff] at hlast
    rw [hlast]
    rfl
  | some last =>
    obtain ⟨m, hm, heq⟩ := pushed_getLast hlast
    obtain ⟨hlt, hget⟩ := List.getElem?_eq_some_iff.mp hm
    have hidx : log.findIdx (fun trx => trx.cursor == last.cursor) = m := by
      rw [List.findIdx_eq hlt]
      refine ⟨by rw [hget]; exact beq_self_eq_true _, fun j hj => ?_⟩
      refine beq_false_of_ne fun hsame => ?_
      have hj' : j < log.length := Nat.lt_trans hj hlt
      have hinj := List.nodup_iff_injective_getElem.mp h.nodup
      have hjm := @hinj ⟨j, by rwa [List.length_map]⟩ ⟨m, by rwa [List.length_map]⟩
        (by simpa [hget] using hsame)
      exact Nat.ne_of_lt hj (Fin.mk.inj hjm)
    have hresume : resume log last.cursor = m + 1 := by
      rw [resume, if_neg (h.ne last (hget ▸ List.getElem_mem hlt)), hidx]
    show pushed (log.take (resume log last.cursor)) = _
    rw [hresume, heq]

end Pushed

/-! ## The receiver -/

section Receiver

variable {sha256 : Bytes → Checksum256} {account : Name} {log : List StreamTrx}

/-- Both instances are there. -/
def Storage.Up (s : Storage) : Prop := s.blocksWasm.isSome ∧ s.stateWasm.isSome

/-- `saveState` leaves a storage that is up. -/
theorem Storage.Up.saveState {s : Storage} (h : s.Up) : ∃ memory,
    (s.protect fun blocksWasm stateWasm => .ok (stateWasm, blocksWasm, stateWasm)) =
      (.ok memory, s) := by
  obtain ⟨b, hb⟩ := Option.isSome_iff_exists.mp h.1
  obtain ⟨t, ht⟩ := Option.isSome_iff_exists.mp h.2
  refine ⟨t, ?_⟩
  rw [Storage.protect, hb, ht]
  cases s
  cases hb
  cases ht
  rfl

/-- A method that returns leaves a storage that is up. -/
theorem up_of_thenChanged {α : Type} {s s' : Storage} {a : α}
    {f : MicroChain → MicroChain → Except Failure (α × MicroChain × MicroChain)}
    (h : Storage.thenChanged (s.protect f) = (.ok a, s')) : s'.Up := by
  rw [Storage.protect] at h
  split at h
  · next b t hb ht =>
    cases hf : f b t with
    | error e =>
      rw [hf] at h
      cases h
    | ok r =>
      rw [hf] at h
      cases h
      exact ⟨rfl, rfl⟩
  · cases h

theorem up_of_pushTrx {r r' : DfuseReceiver} {trx : JsonTrx} (hup : r.storage.Up)
    (h : r.pushTrx sha256 trx = (.ok (), r')) : r'.storage.Up := by
  have hafter : ∀ {α : Type} {result : Except StorageError α × Storage} {r' : DfuseReceiver},
      (∀ a s', result = (.ok a, s') → s'.Up) → r.afterStorage result = (.ok (), r') →
        r'.storage.Up := by
    intro α result r' hok h
    obtain ⟨outcome, s'⟩ := result
    cases outcome with
    | error e => cases h
    | ok a =>
      cases h
      exact hok a s' rfl
  have hpush : ∀ {prev r'}, r.pushUnpushed sha256 prev = (.ok (), r') → r'.storage.Up := by
    intro prev r' h
    rw [DfuseReceiver.pushUnpushed] at h
    split at h
    · exact hafter (fun a s' => up_of_thenChanged) h
    · split at h
      · split at h
        · cases h
        · exact hafter (fun a s' => up_of_thenChanged) h
      · cases h
        exact hup
  have hsettle : ∀ {r'}, r.settle sha256 trx = (.ok (), r') → r'.storage.Up := by
    intro r' h
    rw [DfuseReceiver.settle] at h
    split at h
    · split at h
      · cases h
        exact hup
      · exact hpush h
    · cases h
      exact hup
  rw [DfuseReceiver.pushTrx] at h
  split at h
  · cases h
  · next r₁ hr =>
    have hup' := hsettle hr
    split at h <;> cases h <;> exact hup'

/-- Push the messages of a journal, from an empty storage on. -/
def replayed (sha256 : Bytes → Checksum256) (account : Name) (journal : List StreamTrx) :
    Except ReceiverError Unit × DfuseReceiver :=
  (DfuseReceiver.start account).pushTrxs sha256 (journal.map (·.toJsonTrx))

theorem replayed_concat {journal : List StreamTrx} {r : DfuseReceiver}
    (h : replayed sha256 account journal = (.ok (), r)) (trx : StreamTrx) :
    replayed sha256 account (journal ++ [trx]) = r.pushTrx sha256 trx.toJsonTrx := by
  rw [replayed, List.map_append, pushTrxs_append h]
  show r.pushTrxs sha256 [trx.toJsonTrx] = _
  rw [DfuseReceiver.pushTrxs]
  split
  · next e r' he => exact he.symm
  · next r' hr => exact hr.symm

/-- An exception ends a run. -/
theorem pushTrxs_append_error {r r' : DfuseReceiver} {msgs : List JsonTrx} {e : ReceiverError}
    (h : r.pushTrxs sha256 msgs = (.error e, r')) (more : List JsonTrx) :
    r.pushTrxs sha256 (msgs ++ more) = (.error e, r') := by
  induction msgs generalizing r with
  | nil => cases h
  | cons m msgs ih =>
    rw [List.cons_append, DfuseReceiver.pushTrxs]
    rw [DfuseReceiver.pushTrxs] at h
    split at h
    · exact h
    · exact ih h

/-- A beginning of a journal that can be pushed can be pushed. -/
theorem replayed_of_concat {journal : List StreamTrx} {trx : StreamTrx} {r : DfuseReceiver}
    (h : replayed sha256 account (journal ++ [trx]) = (.ok (), r)) :
    ∃ r', replayed sha256 account journal = (.ok (), r') := by
  match hr : replayed sha256 account journal with
  | (.ok _, r') => exact ⟨r', rfl⟩
  | (.error e, r') =>
    rw [replayed, List.map_append, pushTrxs_append_error hr] at h
    cases h

theorem up_of_replayed {journal : List StreamTrx} {r : DfuseReceiver}
    (h : replayed sha256 account journal = (.ok (), r)) : r.storage.Up := by
  induction journal using List.reverseRecOn generalizing r with
  | nil =>
    cases h
    exact ⟨rfl, rfl⟩
  | append_singleton journal trx ih =>
    obtain ⟨r', hr⟩ := replayed_of_concat h
    rw [replayed_concat hr] at h
    exact up_of_pushTrx (ih hr) h

/-- A receiver that has had no exception and is past `n` messages. -/
structure StreamInv (sha256 : Bytes → Checksum256) (account : Name) (log : List StreamTrx)
    (r : StreamReceiver) (n : Nat) : Prop where
  journal : r.jsonTransactions = pushed (log.take n)
  receiver : replayed sha256 account r.jsonTransactions = (.ok (), r.receiver)
  file : r.files.jsonTrxFile.getD [] = r.jsonTransactions.take r.numSaved
  numSaved : r.numSaved ≤ r.jsonTransactions.length
  unsaved : r.jsonTransactions.length ≤ r.numSaved + 10
  cursor : r.jsonTransactions = [] → r.cursor = ""

/-- A file that a process can start on. -/
def Saved (sha256 : Bytes → Checksum256) (account : Name) (log : List StreamTrx) (files : Files) :
    Prop :=
  ∃ n receiver, files.jsonTrxFile.getD [] = pushed (log.take n) ∧
    replayed sha256 account (files.jsonTrxFile.getD []) = (.ok (), receiver)

variable {r : StreamReceiver} {n : Nat} {trx : StreamTrx}

/-- **A message.** -/
theorem StreamInv.onData (h : StreamInv sha256 account log r n) (htrx : log[n]? = some trx)
    (hsaved : Saved sha256 account log r.files) :
    (∃ r', r.onData sha256 trx = (.ok (), r') ∧ StreamInv sha256 account log r' (n + 1) ∧
        r'.stream = r.stream ∧ r'.scheduled = r.scheduled ∧
        Saved sha256 account log r'.files) ∨
      ∃ e r', r.onData sha256 trx = (.error e, r') ∧ r'.scheduled = r.scheduled ∧
        Saved sha256 account log r'.files ∧
        ∀ receiver, replayed sha256 account (pushed (log.take (n + 1))) ≠ (.ok (), receiver) := by
  have hnext := pushed_take_succ htrx
  rw [← h.journal] at hnext
  by_cases hpushes : pushes r.jsonTransactions.getLast? trx
  · rw [keep, if_pos hpushes] at hnext
    have hreplayed := replayed_concat h.receiver trx
    match hpush : r.receiver.pushTrx sha256 trx.toJsonTrx with
    | (.error e, receiver) =>
      refine .inr ⟨e, { r with jsonTransactions := r.jsonTransactions ++ [trx], receiver }, ?_, rfl,
        hsaved, fun receiver' hok => ?_⟩
      · rw [StreamReceiver.onData, if_pos hpushes]
        dsimp only
        rw [hpush]
      · rw [hnext, hreplayed, hpush] at hok
        cases hok
    | (.ok _, receiver) =>
      rw [hpush] at hreplayed
      have hup := up_of_replayed hreplayed
      by_cases hsave : (r.jsonTransactions ++ [trx]).length - r.numSaved > 10 || trx.trace.isNone
      · -- both files are written
        obtain ⟨memory, hmemory⟩ := hup.saveState
        refine .inl ⟨{ r with
          receiver
          jsonTransactions := r.jsonTransactions ++ [trx]
          numSaved := (r.jsonTransactions ++ [trx]).length
          files := { jsonTrxFile := some (r.jsonTransactions ++ [trx]), stateFile := memory } },
          ?_, ⟨hnext.symm, hreplayed, ?_, Nat.le_refl _, Nat.le_add_right _ _, ?_⟩, rfl, rfl, ?_⟩
        · rw [StreamReceiver.onData, if_pos hpushes]
          dsimp only
          rw [hpush]
          dsimp only
          rw [if_pos hsave, StreamReceiver.save, StreamReceiver.saveState]
          dsimp only
          rw [hmemory]
        · exact (List.take_length ..).symm
        · intro hnil
          exact absurd hnil (List.append_ne_nil_of_right_ne_nil _ (List.cons_ne_nil trx []))
        · exact ⟨n + 1, receiver, hnext.symm, hreplayed⟩
      · refine .inl ⟨{ r with receiver, jsonTransactions := r.jsonTransactions ++ [trx] }, ?_,
          ⟨hnext.symm, hreplayed, ?_, ?_, ?_, ?_⟩, rfl, rfl, hsaved⟩
        · rw [StreamReceiver.onData, if_pos hpushes]
          dsimp only
          rw [hpush]
          dsimp only
          rw [if_neg hsave]
        · show r.files.jsonTrxFile.getD [] = (r.jsonTransactions ++ [trx]).take r.numSaved
          rw [List.take_append_of_le_length h.numSaved]
          exact h.file
        · show r.numSaved ≤ (r.jsonTransactions ++ [trx]).length
          rw [List.length_append]
          exact Nat.le_trans h.numSaved (Nat.le_add_right _ _)
        · rw [Bool.or_eq_true, not_or, decide_eq_true_eq] at hsave
          show (r.jsonTransactions ++ [trx]).length ≤ r.numSaved + 10
          omega
        · intro hnil
          exact absurd hnil (List.append_ne_nil_of_right_ne_nil _ (List.cons_ne_nil trx []))
  · rw [keep, if_neg hpushes] at hnext
    refine .inl ⟨r, ?_, ⟨hnext.symm, h.receiver, h.file, h.numSaved, h.unsaved, h.cursor⟩, rfl, rfl,
      hsaved⟩
    rw [StreamReceiver.onData, if_neg hpushes]

theorem StreamInv.congr (h : StreamInv sha256 account log r n) {n' : Nat}
    (heq : pushed (log.take n') = pushed (log.take n)) : StreamInv sha256 account log r n' :=
  ⟨h.journal.trans heq.symm, h.receiver, h.file, h.numSaved, h.unsaved, h.cursor⟩

/-- **A new subscription** goes on where the journal ends. -/
theorem StreamInv.connect (h : StreamInv sha256 account log r n) (hcursors : Cursors log)
    (hstream : r.stream = false) (succeeds : Bool) :
    (r.connect succeeds).files = r.files ∧ (r.connect succeeds).stream = succeeds ∧
      (succeeds = true → (r.connect succeeds).scheduled = r.scheduled ∧
        StreamInv sha256 account log (r.connect succeeds)
          (resume log (r.connect succeeds).cursor)) ∧
      StreamInv sha256 account log (r.connect succeeds) n := by
  have hcursor : (r.jsonTransactions.getLast?.map StreamTrx.cursor).getD r.cursor =
      ((pushed (log.take n)).getLast?.map (·.cursor)).getD "" := by
    rw [← h.journal]
    cases hlast : r.jsonTransactions.getLast? with
    | none => exact h.cursor (List.getLast?_eq_none_iff.mp hlast)
    | some last => rfl
  have hresume := pushed_resume hcursors n
  rw [← hcursor] at hresume
  have hinv : ∀ stream scheduled, StreamInv sha256 account log { r with
      cursor := (r.jsonTransactions.getLast?.map StreamTrx.cursor).getD r.cursor
      stream
      scheduled } n := fun stream scheduled =>
    ⟨h.journal, h.receiver, h.file, h.numSaved, h.unsaved, fun hnil => by
      dsimp only at hnil ⊢
      rw [hnil]
      exact h.cursor hnil⟩
  rw [StreamReceiver.connect, hstream]
  cases succeeds with
  | true => exact ⟨rfl, rfl, fun _ => ⟨rfl, (hinv true r.scheduled).congr hresume⟩, hinv true _⟩
  | false => exact ⟨rfl, rfl, nofun, hinv false true⟩

theorem connect_jsonTransactions (r : StreamReceiver) (succeeds : Bool) :
    (r.connect succeeds).jsonTransactions = r.jsonTransactions := by
  rw [StreamReceiver.connect]
  split
  · rfl
  · cases succeeds <;> rfl

/-- A process that has pushed the messages of its file, and written the state file. -/
def started (receiver : DfuseReceiver) (files : Files) (memory : MicroChain) : StreamReceiver where
  receiver
  jsonTransactions := files.jsonTrxFile.getD []
  numSaved := (files.jsonTrxFile.getD []).length
  files := { files with stateFile := some memory }

/-- **A process that starts** on a file is where the one was that wrote it. -/
theorem start_eq {files : Files} (h : Saved sha256 account log files) (hcursors : Cursors log)
    (preventConnect succeeds : Bool) :
    ∃ r n, StreamReceiver.start sha256 account files preventConnect succeeds = some r ∧
      StreamInv sha256 account log r n ∧ Saved sha256 account log r.files ∧
      r.jsonTransactions = files.jsonTrxFile.getD [] ∧
      r.stream = (!preventConnect && succeeds) ∧
      (r.stream = true → n = resume log r.cursor ∧ r.scheduled = false) := by
  obtain ⟨n, receiver, hjournal, hreplayed⟩ := h
  obtain ⟨memory, hmemory⟩ := (up_of_replayed hreplayed).saveState
  have hinv : StreamInv sha256 account log (started receiver files memory) n :=
    ⟨hjournal, hreplayed, (List.take_length ..).symm, Nat.le_refl _, Nat.le_add_right _ _,
      fun _ => rfl⟩
  have hstart : StreamReceiver.start sha256 account files preventConnect succeeds =
      some (if preventConnect then started receiver files memory
        else (started receiver files memory).connect succeeds) := by
    rw [replayed] at hreplayed
    rw [StreamReceiver.start]
    dsimp only
    rw [hreplayed]
    dsimp only
    rw [StreamReceiver.saveState]
    dsimp only
    rw [hmemory]
    rfl
  cases preventConnect with
  | true =>
    exact ⟨_, n, hstart, hinv, ⟨n, receiver, hjournal, hreplayed⟩, rfl, rfl, nofun⟩
  | false =>
    obtain ⟨hfiles, hstream, hopened, hclosed⟩ := hinv.connect hcursors rfl succeeds
    have hsaved : Saved sha256 account log
        ((started receiver files memory).connect succeeds).files := by
      rw [hfiles]
      exact ⟨n, receiver, hjournal, hreplayed⟩
    have hkept := connect_jsonTransactions (started receiver files memory) succeeds
    cases succeeds with
    | true =>
      obtain ⟨hscheduled, hresumed⟩ := hopened rfl
      exact ⟨_, _, hstart, hresumed, hsaved, hkept, hstream, fun _ => ⟨rfl, hscheduled⟩⟩
    | false =>
      exact ⟨_, n, hstart, hclosed, hsaved, hkept, hstream,
        fun hon => absurd (hstream.symm.trans hon) nofun⟩

/-! ## Runs -/

/-- What holds between any two steps: the process, if it runs, has had no exception, or
gets no messages any more. -/
structure DfuseInv (sha256 : Bytes → Checksum256) (account : Name) (log : List StreamTrx)
    (sys : DfuseSystem) : Prop where
  saved : Saved sha256 account log sys.files
  process : ∀ r, sys.process = some r → r.files = sys.files ∧
    ((∃ n, StreamInv sha256 account log r n ∧
        (r.stream = true → n = sys.position ∧ r.scheduled = false)) ∨
      r.stream = false ∧ r.scheduled = false)

theorem dfuseInv_start (sha256 : Bytes → Checksum256) (account : Name) (log : List StreamTrx) :
    DfuseInv sha256 account log {} :=
  ⟨⟨0, _, rfl, rfl⟩, fun r hr => absurd hr (Option.some_ne_none r).symm⟩

/-- **One step.** -/
theorem DfuseInv.step {sys : DfuseSystem} (h : DfuseInv sha256 account log sys)
    (hcursors : Cursors log) (action : DfuseAction) :
    DfuseInv sha256 account log (sys.step sha256 account log action) := by
  cases action with
  | deliver =>
    rw [DfuseSystem.step]
    split
    · next r trx hr htrx =>
      obtain ⟨hfiles, hprocess⟩ := h.process r hr
      split
      · next hstream =>
        rcases hprocess with ⟨n, hinv, hopened⟩ | ⟨hoff, -⟩
        · obtain ⟨rfl, hscheduled⟩ := hopened hstream
          rcases hinv.onData htrx (hfiles ▸ h.saved) with
            ⟨r', hdata, hinv', -, hscheduled', hsaved'⟩ | ⟨e, r', hdata, hscheduled', hsaved', -⟩
          · have hmessage : r.onMessage sha256 (.data trx) = r' := by
              rw [StreamReceiver.onMessage, hdata]
            rw [hmessage]
            refine ⟨hsaved', fun r'' hr'' => ?_⟩
            obtain rfl := Option.some.inj hr''
            exact ⟨rfl, .inl ⟨_, hinv', fun _ => ⟨rfl, hscheduled'.trans hscheduled⟩⟩⟩
          · have hmessage : r.onMessage sha256 (.data trx) = r'.disconnect := by
              rw [StreamReceiver.onMessage, hdata]
            rw [hmessage]
            refine ⟨hsaved', fun r'' hr'' => ?_⟩
            obtain rfl := Option.some.inj hr''
            exact ⟨rfl, .inr ⟨rfl, hscheduled'.trans hscheduled⟩⟩
        · exact absurd (hoff.symm.trans hstream) nofun
      · exact h
    · exact h
  | notice complete =>
    rw [DfuseSystem.step]
    split
    · next r hr =>
      obtain ⟨hfiles, hprocess⟩ := h.process r hr
      split
      · next hstream =>
        rcases hprocess with ⟨n, hinv, hopened⟩ | ⟨hoff, -⟩
        · have hsaved : Saved sha256 account log r.files := hfiles ▸ h.saved
          cases complete with
          | true =>
            refine ⟨hsaved, fun r' hr' => ?_⟩
            obtain rfl := Option.some.inj hr'
            exact ⟨rfl, .inl ⟨n, ⟨hinv.journal, hinv.receiver, hinv.file, hinv.numSaved,
              hinv.unsaved, hinv.cursor⟩, nofun⟩⟩
          | false =>
            refine ⟨hsaved, fun r' hr' => ?_⟩
            obtain rfl := Option.some.inj hr'
            refine ⟨rfl, .inl ⟨n, hinv, fun _ => ?_⟩⟩
            obtain ⟨rfl, hscheduled⟩ := hopened hstream
            refine ⟨?_, hscheduled⟩
            show sys.position = if !r.stream && r.stream then _ else sys.position
            rw [hstream]
            rfl
        · exact absurd (hoff.symm.trans hstream) nofun
      · exact h
    · exact h
  | retry succeeds =>
    rw [DfuseSystem.step]
    split
    · next r hr =>
      obtain ⟨hfiles, hprocess⟩ := h.process r hr
      split
      · next hscheduled =>
        rcases hprocess with ⟨n, hinv, hopened⟩ | ⟨-, hoff⟩
        · have hstream : r.stream = false := Bool.eq_false_iff.mpr fun hon =>
            absurd ((hopened hon).2.symm.trans hscheduled) nofun
          have hinv' : StreamInv sha256 account log { r with scheduled := false } n :=
            ⟨hinv.journal, hinv.receiver, hinv.file, hinv.numSaved, hinv.unsaved, hinv.cursor⟩
          obtain ⟨hfiles', hstream', hresumed, hclosed⟩ := hinv'.connect hcursors hstream succeeds
          have hsame : ({ r with scheduled := false }.connect succeeds).files = sys.files :=
            hfiles'.trans hfiles
          have hsaved : Saved sha256 account log
              ({ r with scheduled := false }.connect succeeds).files := by
            rw [hsame]
            exact h.saved
          refine ⟨hsaved, fun r' hr' => ?_⟩
          obtain rfl := Option.some.inj hr'
          refine ⟨rfl, .inl ?_⟩
          cases succeeds with
          | true =>
            obtain ⟨hnone, hinv''⟩ := hresumed rfl
            refine ⟨_, hinv'', fun _ => ⟨?_, hnone⟩⟩
            show _ = if !r.stream && ({ r with scheduled := false }.connect true).stream then _
              else _
            rw [hstream', hstream]
            rfl
          | false =>
            exact ⟨n, hclosed, fun hon => absurd (hstream'.symm.trans hon) nofun⟩
        · exact absurd (hoff.symm.trans hscheduled) nofun
      · exact h
    · exact h
  | crash => exact ⟨h.saved, fun r hr => absurd hr (Option.some_ne_none r).symm⟩
  | crashSaving =>
    rw [DfuseSystem.step]
    split
    · next r trx hr htrx =>
      obtain ⟨hfiles, hprocess⟩ := h.process r hr
      split
      · next hstream =>
        rcases hprocess with ⟨n, hinv, hopened⟩ | ⟨hoff, -⟩
        · obtain ⟨rfl, -⟩ := hopened hstream
          refine ⟨?_, fun r' hr' => absurd hr' (Option.some_ne_none r').symm⟩
          -- the journal is the one that the message would leave
          show Saved sha256 account log (r.onMessage sha256 (.data trx)).files
          rw [StreamReceiver.onMessage]
          rcases hinv.onData htrx (hfiles ▸ h.saved) with
            ⟨r', hdata, -, -, -, hsaved⟩ | ⟨e, r', hdata, -, hsaved, -⟩
          · rw [hdata]
            exact hsaved
          · rw [hdata]
            exact hsaved
        · exact absurd (hoff.symm.trans hstream) nofun
      · exact h
    · exact h
  | restart preventConnect succeeds =>
    rw [DfuseSystem.step]
    split
    · exact h
    · obtain ⟨r, n, hstart, hinv, hsaved, -, -, hopened⟩ :=
        start_eq h.saved hcursors preventConnect succeeds
      rw [hstart]
      refine ⟨hsaved, fun r' hr' => ?_⟩
      obtain rfl := Option.some.inj hr'
      refine ⟨rfl, .inl ⟨n, hinv, fun hon => ?_⟩⟩
      obtain ⟨rfl, hscheduled⟩ := hopened hon
      exact ⟨(if_pos hon).symm, hscheduled⟩

/-- **Any steps.** -/
theorem DfuseInv.run {sys : DfuseSystem} (h : DfuseInv sha256 account log sys)
    (hcursors : Cursors log) (actions : List DfuseAction) :
    DfuseInv sha256 account log (sys.run sha256 account log actions) := by
  induction actions generalizing sys with
  | nil => exact h
  | cons action actions ih => exact ih (h.step hcursors action)

/-- A receiver that gets messages without an interruption. -/
def uninterrupted (sha256 : Bytes → Checksum256) (account : Name) (msgs : List StreamTrx) :
    StreamReceiver :=
  msgs.foldl (fun r trx => r.onMessage sha256 (.data trx))
    { receiver := DfuseReceiver.start account, stream := true }

theorem uninterrupted_inv {receiver : DfuseReceiver}
    (h : replayed sha256 account (pushed (log.take n)) = (.ok (), receiver)) :
    StreamInv sha256 account log (uninterrupted sha256 account (log.take n)) n ∧
      Saved sha256 account log (uninterrupted sha256 account (log.take n)).files ∧
      (uninterrupted sha256 account (log.take n)).stream = true := by
  induction n generalizing receiver with
  | zero =>
    exact ⟨⟨rfl, rfl, rfl, Nat.le_refl 0, Nat.zero_le _, fun _ => rfl⟩, ⟨0, _, rfl, rfl⟩, rfl⟩
  | succ n ih =>
    cases htrx : log[n]? with
    | none =>
      have hlen := List.getElem?_eq_none_iff.mp htrx
      have hsame : log.take (n + 1) = log.take n := by
        rw [List.take_of_length_le (Nat.le_succ_of_le hlen), List.take_of_length_le hlen]
      rw [hsame] at h ⊢
      obtain ⟨hinv, hsaved, hstream⟩ := ih h
      exact ⟨hinv.congr (congrArg pushed hsame), hsaved, hstream⟩
    | some trx =>
      obtain ⟨receiver', hbefore⟩ : ∃ receiver',
          replayed sha256 account (pushed (log.take n)) = (.ok (), receiver') := by
        rw [pushed_take_succ htrx, keep] at h
        split at h
        · exact replayed_of_concat h
        · exact ⟨receiver, h⟩
      obtain ⟨hinv, hsaved, hstream⟩ := ih hbefore
      have hnext : uninterrupted sha256 account (log.take (n + 1)) =
          (uninterrupted sha256 account (log.take n)).onMessage sha256 (.data trx) := by
        obtain ⟨hn, rfl⟩ := List.getElem?_eq_some_iff.mp htrx
        rw [uninterrupted, List.take_succ_eq_append_getElem hn, List.foldl_append]
        rfl
      rw [hnext, StreamReceiver.onMessage]
      rcases hinv.onData htrx hsaved with
        ⟨r', hdata, hinv', hstream', -, hsaved'⟩ | ⟨e, r', -, -, -, hnot⟩
      · rw [hdata]
        exact ⟨hinv', hsaved', hstream'.trans hstream⟩
      · exact absurd h (hnot receiver)

/-- **Interruptions do not show**: after every run of messages, lost streams, failed
connections, crashes and restarts, a receiver that is subscribed has the storage, the
transactions held back and the journal of one that has got the same messages of the stream
without an interruption. -/
theorem run_uninterrupted (sha256 : Bytes → Checksum256) (account : Name) (log : List StreamTrx)
    (hcursors : Cursors log) (actions : List DfuseAction) :
    let sys := ({} : DfuseSystem).run sha256 account log actions
    ∀ r, sys.process = some r → r.stream = true →
      let u := uninterrupted sha256 account (log.take sys.position)
      u.stream = true ∧ r.receiver = u.receiver ∧ r.jsonTransactions = u.jsonTransactions := by
  intro sys r hr hstream u
  have h := (dfuseInv_start sha256 account log).run hcursors actions
  rcases (h.process r hr).2 with ⟨n, hinv, hopened⟩ | ⟨hoff, -⟩
  · obtain ⟨rfl, -⟩ := hopened hstream
    have hreplayed := hinv.receiver
    rw [hinv.journal] at hreplayed
    obtain ⟨hinv', -, hstream'⟩ := uninterrupted_inv hreplayed
    have hreplayed' := hinv'.receiver
    rw [hinv'.journal] at hreplayed'
    refine ⟨hstream', ?_, hinv.journal.trans hinv'.journal.symm⟩
    exact (Prod.mk.inj (hreplayed.symm.trans hreplayed')).2
  · exact absurd (hoff.symm.trans hstream) nofun

/-- Three messages of a stream. -/
def exampleLog : List StreamTrx :=
  [{ exampleTrx 5 1 false with cursor := "a" }, { exampleMarker 6 with cursor := "b" },
    { exampleTrx 7 2 false with cursor := "c" }]

theorem exampleLog_cursors : Cursors exampleLog := ⟨by decide, by decide⟩

/-- A transaction gets lost in a crash and comes again. -/
def exampleRun : List DfuseAction :=
  [.restart false true, .deliver, .crash, .restart false true, .deliver, .deliver, .notice true,
    .retry true, .deliver]

theorem run_uninterrupted_example :
    let sys := ({} : DfuseSystem).run exampleHash (Name.ofString "starter") exampleLog exampleRun
    ∃ r, sys.process = some r ∧
      r.receiver = (uninterrupted exampleHash (Name.ofString "starter") exampleLog).receiver := by
  intro sys
  obtain ⟨r, hr⟩ : ∃ r, sys.process = some r := Option.isSome_iff_exists.mp (by decide +kernel)
  have hstream : sys.process.map (·.stream) = some true := by decide +kernel
  rw [hr] at hstream
  obtain ⟨-, hreceiver, -⟩ := run_uninterrupted exampleHash (Name.ofString "starter") exampleLog
    exampleLog_cursors exampleRun r hr (Option.some.inj hstream)
  have hposition : exampleLog.take sys.position = exampleLog := by decide +kernel
  exact ⟨r, hr, hreceiver.trans (by rw [hposition])⟩

/-- **What a crash takes back**: the file holds all but the last ten messages that are kept,
and a process that is started on it takes them up and subscribes behind them. -/
theorem run_saved (sha256 : Bytes → Checksum256) (account : Name) (log : List StreamTrx)
    (hcursors : Cursors log) (actions : List DfuseAction) :
    let sys := ({} : DfuseSystem).run sha256 account log actions
    let saved := sys.files.jsonTrxFile.getD []
    (∀ r, sys.process = some r → r.stream = true →
        saved <+: r.jsonTransactions ∧ r.jsonTransactions.length ≤ saved.length + 10) ∧
      ∃ r, ((sys.step sha256 account log .crash).step sha256 account log
          (.restart false true)).process = some r ∧ r.stream = true ∧
        r.jsonTransactions = saved := by
  intro sys saved
  have h := (dfuseInv_start sha256 account log).run hcursors actions
  refine ⟨fun r hr hstream => ?_, ?_⟩
  · obtain ⟨hfiles, hprocess⟩ := h.process r hr
    rcases hprocess with ⟨n, hinv, -⟩ | ⟨hoff, -⟩
    · have hsaved : saved = r.jsonTransactions.take r.numSaved := by
        rw [← hinv.file, hfiles]
      have hlen : saved.length = r.numSaved := by
        rw [hsaved, List.length_take, Nat.min_eq_left hinv.numSaved]
      refine ⟨hsaved ▸ List.take_prefix _ _, ?_⟩
      rw [hlen]
      exact hinv.unsaved
    · exact absurd (hoff.symm.trans hstream) nofun
  · obtain ⟨r, -, hstart, -, -, hjournal, hstream, -⟩ := start_eq h.saved hcursors false true
    refine ⟨r, ?_, hstream, hjournal⟩
    show (DfuseSystem.step sha256 account log { sys with process := none } _).process = _
    rw [DfuseSystem.step]
    dsimp only
    rw [hstart]

theorem run_saved_example :
    let sys := ({} : DfuseSystem).run exampleHash (Name.ofString "starter") exampleLog
      [.restart false true, .deliver, .deliver, .deliver]
    sys.files.jsonTrxFile = some (exampleLog.take 2) ∧
      ∃ r, ((sys.step exampleHash (Name.ofString "starter") exampleLog .crash).step exampleHash
          (Name.ofString "starter") exampleLog (.restart false true)).process = some r ∧
        r.stream = true ∧ r.jsonTransactions = exampleLog.take 2 := by
  intro sys
  have hfile : sys.files.jsonTrxFile = some (exampleLog.take 2) := by decide +kernel
  refine ⟨hfile, ?_⟩
  have hsaved := (run_saved exampleHash (Name.ofString "starter") exampleLog exampleLog_cursors
    [.restart false true, .deliver, .deliver, .deliver]).2
  rwa [hfile] at hsaved

end Receiver

end Microchain.Box
