import Microchain.Eosio.Codec
import Microchain.Subchain.Types

/-!
# Blocks read back from their bytes (`from_bin.hpp` on the types of `subchain.hpp`)

The decoders of the records that `addBlock` reads, field by field in the order of the
`EOSIO_REFLECT` lists, and **the round trip** of every record
(`blockWithIdFromBin_toBin`). A container has a 32-bit size in the instance (`Fits`), and
that is what its size prefix holds.
-/

namespace Microchain.Eosio

/-! ## Words, options and bytes -/

/-- `read_be` of one word. -/
def wordFromBin : FromBin UInt64 := fun s => do
  let (bytes, s) ← readBytes 8 s
  let (w, _) ← uint64FromBin bytes.reverse
  .ok (w, s)

/-- `from_bin(fixed_bytes&)` -/
def checksum256FromBin : FromBin Checksum256 := fun s => do
  let (w0, s) ← wordFromBin s
  let (w1, s) ← wordFromBin s
  let (w2, s) ← wordFromBin s
  let (w3, s) ← wordFromBin s
  .ok (⟨#v[w0, w1, w2, w3]⟩, s)

def timePointFromBin : FromBin TimePoint := fun s => do
  let (elapsed, s) ← uint64FromBin s
  .ok (⟨elapsed.toInt64⟩, s)

/-- `from_bin(std::optional<T>&)` -/
def optionalFromBin {α : Type} (elemFromBin : FromBin α) : FromBin (Option α) := fun s => do
  let (present, s) ← uint8FromBin s
  if present = 0 then .ok (none, s)
  else do
    let (v, s) ← elemFromBin s
    .ok (some v, s)

theorem wordFromBin_toBytes (w : UInt64) (s : Bytes) : wordFromBin (wordToBytes w ++ s) = .ok (w, s) := by
  have hlen : (wordToBytes w).length = 8 := rfl
  have hread : readBytes 8 (wordToBytes w ++ s) = .ok (wordToBytes w, s) := by
    rw [readBytes, if_pos (by rw [List.length_append, hlen]; omega), ← hlen, List.take_left,
      List.drop_left]
  have hword : uint64FromBin (wordToBytes w).reverse = .ok (w, []) := by
    rw [wordToBytes, List.reverse_reverse, ← List.append_nil (uint64ToBin w), uint64FromBin_toBin]
  rw [wordFromBin]
  simp only [hread, hword, bind, Except.bind]

theorem checksum256ToBin_eq (w0 w1 w2 w3 : UInt64) :
    checksum256ToBin ⟨#v[w0, w1, w2, w3]⟩ =
      wordToBytes w0 ++ (wordToBytes w1 ++ (wordToBytes w2 ++ wordToBytes w3)) := by
  show [w0, w1, w2, w3].flatMap wordToBytes = _
  simp only [List.flatMap_cons, List.flatMap_nil, List.append_nil]

theorem checksum256FromBin_toBin (c : Checksum256) (s : Bytes) :
    checksum256FromBin (checksum256ToBin c ++ s) = .ok (c, s) := by
  obtain ⟨w0, w1, w2, w3, rfl⟩ : ∃ w0 w1 w2 w3, c = ⟨#v[w0, w1, w2, w3]⟩ := by
    refine ⟨c.value[0], c.value[1], c.value[2], c.value[3], ?_⟩
    obtain ⟨v⟩ := c
    congr 1
    ext i hi
    match i, hi with
    | 0, _ => rfl
    | 1, _ => rfl
    | 2, _ => rfl
    | 3, _ => rfl
  rw [checksum256ToBin_eq, List.append_assoc, List.append_assoc, List.append_assoc]
  rw [checksum256FromBin]
  simp only [wordFromBin_toBytes, bind, Except.bind]

theorem timePointFromBin_toBin (t : TimePoint) (s : Bytes) :
    timePointFromBin (timePointToBin t ++ s) = .ok (t, s) := by
  rw [timePointToBin, timePointFromBin]
  simp only [uint64FromBin_toBin, bind, Except.bind]
  rfl

theorem optionalFromBin_toBin {α : Type} {toBin : α → Bytes} {fromBin : FromBin α}
    (helem : ∀ a s, fromBin (toBin a ++ s) = .ok (a, s)) (v : Option α) (s : Bytes) :
    optionalFromBin fromBin (optionalToBin toBin v ++ s) = .ok (v, s) := by
  cases v with
  | none => rfl
  | some a =>
    show (fromBin (toBin a ++ s)).bind _ = _
    rw [helem]
    rfl

end Microchain.Eosio

namespace Microchain.Subchain

open Eosio

/-! ## The decoders -/

def creatorActionFromBin : FromBin CreatorAction := fun s => do
  let (seq, s) ← uint64FromBin s
  let (receiver, s) ← nameFromBin s
  .ok (⟨seq, receiver⟩, s)

def actionFromBin : FromBin Action := fun s => do
  let (seq, s) ← uint64FromBin s
  let (firstReceiver, s) ← nameFromBin s
  let (receiver, s) ← nameFromBin s
  let (name, s) ← nameFromBin s
  let (creatorAction, s) ← optionalFromBin creatorActionFromBin s
  let (hexData, s) ← stringFromBin s
  .ok ({ seq, firstReceiver, receiver, name, creatorAction, hexData }, s)

def transactionFromBin : FromBin Transaction := fun s => do
  let (id, s) ← checksum256FromBin s
  let (actions, s) ← vectorFromBin actionFromBin s
  .ok ({ id, actions }, s)

def eosioBlockFromBin : FromBin EosioBlock := fun s => do
  let (num, s) ← uint32FromBin s
  let (id, s) ← checksum256FromBin s
  let (previous, s) ← checksum256FromBin s
  let (timestamp, s) ← timePointFromBin s
  let (transactions, s) ← vectorFromBin transactionFromBin s
  .ok ({ num, id, previous, timestamp, transactions }, s)

def blockFromBin : FromBin Block := fun s => do
  let (num, s) ← uint32FromBin s
  let (previous, s) ← checksum256FromBin s
  let (eosioBlock, s) ← eosioBlockFromBin s
  .ok ({ num, previous, eosioBlock }, s)

def blockWithIdFromBin : FromBin BlockWithId := fun s => do
  let (id, s) ← checksum256FromBin s
  let (block, s) ← blockFromBin s
  .ok ({ block with id }, s)

/-! ## Round trips -/

/-- Every container of the action has a 32-bit size. -/
def Action.Fits (a : Action) : Prop := Sized a.hexData

def Transaction.Fits (t : Transaction) : Prop := Sized t.actions ∧ ∀ a ∈ t.actions, a.Fits

def EosioBlock.Fits (b : EosioBlock) : Prop :=
  Sized b.transactions ∧ ∀ t ∈ b.transactions, t.Fits

theorem creatorActionFromBin_toBin (a : CreatorAction) (s : Bytes) :
    creatorActionFromBin (creatorActionToBin a ++ s) = .ok (a, s) := by
  rw [creatorActionToBin, List.append_assoc, creatorActionFromBin]
  simp only [uint64FromBin_toBin, nameFromBin_toBin, bind, Except.bind]

theorem actionFromBin_toBin {a : Action} (h : a.Fits) (s : Bytes) :
    actionFromBin (actionToBin a ++ s) = .ok (a, s) := by
  rw [actionToBin, List.append_assoc, List.append_assoc, List.append_assoc, List.append_assoc,
    List.append_assoc, actionFromBin]
  simp only [uint64FromBin_toBin, nameFromBin_toBin,
    optionalFromBin_toBin creatorActionFromBin_toBin, stringFromBin_toBin h, bind, Except.bind]

theorem transactionFromBin_toBin {t : Transaction} (h : t.Fits) (s : Bytes) :
    transactionFromBin (transactionToBin t ++ s) = .ok (t, s) := by
  rw [transactionToBin, List.append_assoc, transactionFromBin]
  simp only [checksum256FromBin_toBin,
    vectorFromBin_toBin h.1 fun a ha => actionFromBin_toBin (h.2 a ha), bind, Except.bind]

theorem eosioBlockFromBin_toBin {b : EosioBlock} (h : b.Fits) (s : Bytes) :
    eosioBlockFromBin (eosioBlockToBin b ++ s) = .ok (b, s) := by
  rw [eosioBlockToBin, List.append_assoc, List.append_assoc, List.append_assoc, List.append_assoc,
    eosioBlockFromBin]
  simp only [uint32FromBin_toBin, checksum256FromBin_toBin, timePointFromBin_toBin,
    vectorFromBin_toBin h.1 fun t ht => transactionFromBin_toBin (h.2 t ht), bind, Except.bind]

theorem blockFromBin_toBin {b : Block} (h : b.eosioBlock.Fits) (s : Bytes) :
    blockFromBin (blockToBin b ++ s) = .ok (b, s) := by
  rw [blockToBin, List.append_assoc, List.append_assoc, blockFromBin]
  simp only [uint32FromBin_toBin, checksum256FromBin_toBin, eosioBlockFromBin_toBin h, bind,
    Except.bind]

/-- **The round trip** of a block with its id. -/
theorem blockWithIdFromBin_toBin {b : BlockWithId} (h : b.eosioBlock.Fits) (s : Bytes) :
    blockWithIdFromBin (blockWithIdToBin b ++ s) = .ok (b, s) := by
  rw [blockWithIdToBin, List.append_assoc, blockWithIdFromBin]
  simp only [checksum256FromBin_toBin, blockFromBin_toBin h, bind, Except.bind]

/-- So the encoding of a block covers all of it. -/
theorem blockToBin_inj {b b' : Block} (h : b.eosioBlock.Fits) (h' : b'.eosioBlock.Fits)
    (heq : blockToBin b = blockToBin b') : b = b' := by
  have hb := blockFromBin_toBin h []
  rw [heq, blockFromBin_toBin h' []] at hb
  cases hb
  rfl

end Microchain.Subchain
