import Microchain.Graphql.Paging
import Microchain.Starter.Replay

/-!
# The connections of the micro chain

`Query::greetings` and `subchain::BlockLog::blocks`: the two instantiations of
`make_connection`, with the container each of them reads. In every state of a chain
run both containers are ordered, which is all that paging needs: a client that pages
through the greetings or the blocks, while the chain goes through any states in
between, receives what was there all the time (`greetings_received`,
`blocks_received`).
-/

namespace Microchain.Starter

open Eosio Subchain Chainbase Lib Graphql

/-! ## Blocks by number -/

/-- `BlockConnection` -/
def blockSchema : Schema UInt32 BlockWithId BlockWithId where
  key := uint32Key
  toKey block := block.num
  toNode block := block
  nodeKey block := block.num
  nodeKey_toNode _ := rfl

/-- `log.blocks` with its two searches. -/
def blockContainer (log : BlockLog) : Container UInt32 BlockWithId where
  elems := log.blocks
  lowerBound := log.lowerBoundByNum
  upperBound := log.upperBoundByNum

/-- `BlockLog::blocks` -/
def Query.blocks (m : MicroChain) (range : RangeArgs UInt32) (args : PageArgs) :
    Except String (Connection BlockWithId) :=
  makeConnection (blockContainer m.blockLog) blockSchema range args

/-! ## Greetings by account -/

/-- `Greeting`: the node of a `greeting`. -/
structure GreetingNode where
  account : Name
  greeting : Option Greeting
deriving DecidableEq, Repr

/-- `GreetingConnection` -/
def greetingSchema : Schema Name (Object Greeting) GreetingNode where
  key := nameKey
  toKey obj := obj.value.account
  toNode obj := ⟨obj.value.account, some obj.value⟩
  nodeKey node := node.account
  nodeKey_toNode _ := rfl

/-- `get<by_pk>()` with `lower_bound` and `upper_bound`. -/
def greetingContainer (table : GreetingIndex) : Container Name (Object Greeting) :=
  .orderedSet greetingSchema (byPk table)

/-- `Query::greetings` -/
def Query.greetings (m : MicroChain) (range : RangeArgs Name) (args : PageArgs) :
    Except String (Connection GreetingNode) :=
  makeConnection (greetingContainer m.db.greetings) greetingSchema range args

/-! ## Both are ordered -/

/-- Only `~uint32_t(0)` has no successor. -/
theorem toNat_succ {num : UInt32} (h : num ≠ ~~~0) : (num + 1).toNat = num.toNat + 1 := by
  have hmax : num.toNat ≠ 4294967295 := fun heq => h (UInt32.toNat_inj.mp heq)
  have hlt := num.toNat_lt
  rw [UInt32.toNat_add]
  show (num.toNat + 1) % 4294967296 = num.toNat + 1
  omega

/-- A linked log is ordered by block number. -/
theorem blocks_ordered {log : BlockLog} (h : log.blocks.IsChain Linked) :
    (blockContainer log).Ordered blockSchema where
  sorted := by
    rw [Sorted, Container.keys, List.pairwise_map, List.pairwise_iff_getElem]
    intro i j _ hj hij
    exact decide_eq_true (num_lt_of_lt h hj hij)
  lower_le num := (BlockLog.lowerBoundByNum_spec h num).1
  lower num i hi := by
    obtain ⟨-, hlow, hhigh⟩ := BlockLog.lowerBoundByNum_spec h num
    show i < log.lowerBoundByNum num ↔ decide (log.blocks[i].num < num)
    rw [decide_eq_true_eq]
    refine ⟨hlow i hi, fun hlt => ?_⟩
    by_contra hge
    exact absurd (hhigh i hi (Nat.le_of_not_lt hge)) (UInt32.not_le.mpr hlt)
  upper_le num := by
    show log.upperBoundByNum num ≤ log.blocks.length
    unfold BlockLog.upperBoundByNum
    split
    · exact Nat.le_refl _
    · exact (BlockLog.lowerBoundByNum_spec h (num + 1)).1
  upper num i hi := by
    show i < log.upperBoundByNum num ↔ ¬ decide (num < log.blocks[i].num)
    rw [decide_eq_true_eq, UInt32.not_lt]
    unfold BlockLog.upperBoundByNum
    split
    · next hmax =>
      -- no number is above `~uint32_t(0)`
      subst hmax
      refine ⟨fun _ => ?_, fun _ => hi⟩
      have := log.blocks[i].num.toNat_lt
      rw [UInt32.le_iff_toNat_le]
      show _ ≤ 4294967295
      omega
    · next hmax =>
      obtain ⟨-, hlow, hhigh⟩ := BlockLog.lowerBoundByNum_spec h (num + 1)
      have hsucc : (num + 1).toNat = num.toNat + 1 := toNat_succ hmax
      constructor
      · intro hlt
        have := hlow i hi hlt
        rw [UInt32.lt_iff_toNat_lt] at this
        rw [UInt32.le_iff_toNat_le]
        omega
      · intro hle
        by_contra hge
        have := hhigh i hi (Nat.le_of_not_lt hge)
        rw [UInt32.le_iff_toNat_le] at this hle
        omega

theorem byPk_sorted {table : GreetingIndex} (h : Store [orderedByPk] table) :
    Sorted orderedByPk.less (byPk table) := by
  have hcomps := h.secondary_comps
  unfold byPk
  match hsec : table.secondary with
  | [] => exact List.Pairwise.nil
  | set :: sets =>
    have hset : set ∈ table.secondary := by simp [hsec]
    have hcomp : set.comp = orderedByPk := by
      rw [hsec, List.map_cons] at hcomps
      exact (List.cons.inj hcomps).1
    have hsorted := h.contents_sorted hset
    rwa [hcomp] at hsorted

/-- A greeting table is ordered by account. -/
theorem greetings_ordered {table : GreetingIndex} (h : Store [orderedByPk] table) :
    (greetingContainer table).Ordered greetingSchema :=
  Container.orderedSet_ordered (byPk_sorted h)

/-! ## Paging over the states of a chain -/

section Runs

variable (sha256 : Bytes → Checksum256) (starterAccount : Name)

/-- The state a client finds after some calls. -/
def stateAfter (calls : List Call) : MicroChain :=
  ((ChainRun.start starterAccount).run sha256 calls).chain

variable {sha256 starterAccount} {histories : List (List Call)}

/-- Paging forward through the greetings, `histories[i]` being the calls before
request `i`. -/
theorem greetings_received {n : UInt32} (hn : 0 < n) (range : RangeArgs Name)
    (h : ∀ calls ∈ histories, (ChainRun.start starterAccount).Unaborted sha256 calls) :
    let requests := histories.map fun calls =>
      greetingContainer (stateAfter sha256 starterAccount calls).db.greetings
    ∃ conns, readForward greetingSchema range n requests = .ok conns ∧
      Received greetingSchema range nameKey.less (requests.take conns.length)
        (conns.flatMap (·.keys greetingSchema)) (done PageInfo.hasNextPage conns) := by
  refine readForward_received hn range fun c hc => ?_
  obtain ⟨calls, hcalls, rfl⟩ := List.mem_map.mp hc
  have hinv := ChainRun.run_inv (ChainRun.inv_start starterAccount) (h calls hcalls)
  exact greetings_ordered hinv.table.store

/-- Paging backward through the blocks, from the newest one. -/
theorem blocks_received {n : UInt32} (hn : 0 < n) (range : RangeArgs UInt32)
    (h : ∀ calls ∈ histories, (ChainRun.start starterAccount).Unaborted sha256 calls) :
    let requests := histories.map fun calls =>
      blockContainer (stateAfter sha256 starterAccount calls).blockLog
    ∃ conns, readBackward blockSchema range n requests = .ok conns ∧
      Received blockSchema range (fun a b => uint32Key.less b a) (requests.take conns.length)
        (conns.flatMap fun conn => (conn.keys blockSchema).reverse)
        (done PageInfo.hasPreviousPage conns) := by
  refine readBackward_received hn range fun c hc => ?_
  obtain ⟨calls, hcalls, rfl⟩ := List.mem_map.mp hc
  have hinv := ChainRun.run_inv (ChainRun.inv_start starterAccount) (h calls hcalls)
  exact blocks_ordered hinv.log.linked

end Runs

end Microchain.Starter
