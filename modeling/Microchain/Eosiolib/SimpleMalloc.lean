import Mathlib.Algebra.Ring.Nat

/-!
# The contract allocator (`simple_malloc.cpp`)

A bump allocator over the linear memory of a wasm instance. Addresses, sizes and the
page bound are 32-bit numbers that wrap. `next_page` is a number of pages until the
memory grows for the first time, and a number of bytes from then on, yet it is compared
with addresses all the time.

- `align_toNat`: what `align` computes.
- `allocate_spec`: an allocation that ends below 2^32 gets memory that is there.
- `heap_sound`: **as long as they do, all blocks are aligned, inside the memory and
  apart**, and the first allocation that does not breaks this.

What `memset` and `memmove` do to the contents is left out.
-/

namespace Microchain.Eosiolib

/-! ## The linear memory -/

/-- The linear memory of an instance. A host can set a limit below the 65536 pages that
32-bit addresses reach. -/
structure Memory where
  pages : Nat
  maxPages : Nat
  pages_le : pages ≤ maxPages
  maxPages_le : maxPages ≤ 65536

/-- `__builtin_wasm_memory_grow`, which returns -1 when there is no more memory. -/
def Memory.grow (m : Memory) (delta : UInt32) : Option Memory :=
  if h : m.pages + delta.toNat ≤ m.maxPages then
    some { m with pages := m.pages + delta.toNat, pages_le := h }
  else none

/-- The bytes of the memory. -/
def Memory.bytes (m : Memory) : Nat := m.pages * 65536

/-! ## `dsmalloc` -/

/-- `dsmalloc`, with the memory of the instance. -/
structure Dsmalloc where
  nextAddr : UInt32
  nextPage : UInt32
  memory : Memory

/-- `dsmalloc::align` -/
def align (ptr alignAmt : UInt32) : UInt32 := (ptr + alignAmt - 1) &&& ~~~(alignAmt - 1)

/-- `dsmalloc::wasm_page_size` -/
def wasmPageSize : UInt32 := 64 * 1024

/-- `dsmalloc::dsmalloc` -/
def Dsmalloc.new (heapBase : UInt32) (memory : Memory) : Dsmalloc where
  nextAddr := heapBase
  nextPage := UInt32.ofNat memory.pages
  memory

/-- `dsmalloc::operator()`. Without a result it has failed with an assertion. -/
def Dsmalloc.allocate (s : Dsmalloc) (sz alignAmt : UInt32) : Option (UInt32 × Dsmalloc) :=
  if sz = 0 then some (0, s)
  else
    let ret := align s.nextAddr alignAmt
    let nextAddr := ret + sz
    if s.nextPage < nextAddr then
      let newNextPage := align nextAddr wasmPageSize
      match s.memory.grow ((newNextPage - s.nextPage) >>> 16) with
      | none => none
      | some memory => some (ret, { nextAddr, nextPage := newNextPage, memory })
    else some (ret, { s with nextAddr })

/-- `malloc` -/
def malloc (s : Dsmalloc) (size : UInt32) : Option (UInt32 × Dsmalloc) := s.allocate size 16

/-- The check of `posix_memalign`, which fails with `EINVAL`. -/
def invalidAlignment (alignment : UInt32) : Bool :=
  decide (alignment < 4 ∨ alignment &&& (alignment - 1) ≠ 0)

/-- The alignment that `posix_memalign` asks for. -/
def memalignAmount (alignment : UInt32) : UInt32 := if 16 < alignment then alignment else 16

/-- `posix_memalign`. Without an address `*memptr` is left as it is. -/
def posixMemalign (s : Dsmalloc) (alignment size : UInt32) :
    Option (Option UInt32 × Dsmalloc) :=
  if invalidAlignment alignment then some (none, s)
  else (s.allocate size (memalignAmount alignment)).map fun r => (some r.1, r.2)

/-- `calloc` -/
def calloc (s : Dsmalloc) (count size : UInt32) : Option (UInt32 × Dsmalloc) :=
  s.allocate (count * size) 16

/-- `realloc` -/
def realloc (s : Dsmalloc) (_ptr size : UInt32) : Option (UInt32 × Dsmalloc) :=
  s.allocate size 16

/-! ## Runs -/

/-- A call of the allocator. `free` does nothing. -/
inductive AllocCall where
  | malloc (size : UInt32)
  | posixMemalign (alignment size : UInt32)
  | calloc (count size : UInt32)
  | realloc (ptr size : UInt32)
  | free (ptr : UInt32)
deriving DecidableEq, Repr

/-- What a call returns, if it returns an address, and what it leaves. -/
def AllocCall.exec (s : Dsmalloc) : AllocCall → Option (Option UInt32 × Dsmalloc)
  | malloc size => (Eosiolib.malloc s size).map fun r => (some r.1, r.2)
  | posixMemalign alignment size => Eosiolib.posixMemalign s alignment size
  | calloc count size => (Eosiolib.calloc s count size).map fun r => (some r.1, r.2)
  | realloc ptr size => (Eosiolib.realloc s ptr size).map fun r => (some r.1, r.2)
  | free _ => some (none, s)

/-- The bytes that a call asks for: `calloc` for as many as the product of the integers. -/
def AllocCall.size : AllocCall → Nat
  | malloc size => size.toNat
  | posixMemalign _ size => size.toNat
  | calloc count size => count.toNat * size.toNat
  | realloc _ size => size.toNat
  | free _ => 0

/-- The alignment that a call asks for. -/
def AllocCall.alignment : AllocCall → Nat
  | posixMemalign alignment _ => alignment.toNat
  | _ => 16

/-- A block that a call has returned. -/
structure AllocBlock where
  start : Nat
  size : Nat
  alignment : Nat
deriving DecidableEq, Repr

/-- The allocator and the blocks that it has returned, the latest first. -/
structure Heap where
  malloc : Dsmalloc
  blocks : List AllocBlock

/-- One call. -/
def Heap.step (h : Heap) (call : AllocCall) : Option Heap :=
  (call.exec h.malloc).map fun r =>
    match r.1 with
    | some ptr =>
      if ptr = 0 then ⟨r.2, h.blocks⟩
      else ⟨r.2, ⟨ptr.toNat, call.size, call.alignment⟩ :: h.blocks⟩
    | none => ⟨r.2, h.blocks⟩

/-- A run that does not end in an assertion. -/
def Heap.run (h : Heap) : List AllocCall → Option Heap
  | [] => some h
  | call :: calls => (h.step call).bind fun h => h.run calls

/-- Every block is aligned and inside the memory, and no two overlap. -/
structure Heap.Sound (h : Heap) : Prop where
  aligned : ∀ b ∈ h.blocks, b.alignment ∣ b.start
  inside : ∀ b ∈ h.blocks, b.start + b.size ≤ h.malloc.memory.bytes
  apart : h.blocks.Pairwise fun b earlier =>
    earlier.start + earlier.size ≤ b.start ∨ b.start + b.size ≤ earlier.start

/-! ## What `align` computes -/

/-- The next multiple of `amount` from `n` on. -/
def roundUp (n amount : Nat) : Nat := (n + amount - 1) / amount * amount

theorem le_roundUp (n : Nat) {amount : Nat} (h : 0 < amount) : n ≤ roundUp n amount := by
  have hdiv := Nat.div_add_mod (n + amount - 1) amount
  have hmod := Nat.mod_lt (n + amount - 1) h
  rw [Nat.mul_comm] at hdiv
  rw [roundUp]
  omega

theorem dvd_roundUp (n amount : Nat) : amount ∣ roundUp n amount := Nat.dvd_mul_left _ _

/-- Clearing the low `k` bits. -/
theorem and_not_toNat (n : UInt32) {amount : UInt32} {k : Nat} (hk : amount.toNat = 2 ^ k) :
    (n &&& ~~~(amount - 1)).toNat = n.toNat / amount.toNat * amount.toNat := by
  have hpos : 0 < 2 ^ k := Nat.two_pow_pos k
  have hone : (amount - 1).toNat = 2 ^ k - 1 := by
    rw [UInt32.toNat_sub_of_le]
    · rw [hk]
      rfl
    · rw [UInt32.le_iff_toNat_le, hk]
      exact hpos
  have hlt : 2 ^ k - 1 < 2 ^ 32 := hone ▸ (amount - 1).toNat_lt
  have hmask : UInt32.size - 1 - (2 ^ k - 1) = 2 ^ 32 - (2 ^ k - 1 + 1) := by
    have hsize : UInt32.size = 2 ^ 32 := rfl
    omega
  rw [UInt32.toNat_and, UInt32.toNat_not, hone, hk, hmask]
  refine Nat.eq_of_testBit_eq fun i => ?_
  rw [Nat.testBit_and, Nat.testBit_two_pow_sub_succ hlt, Nat.testBit_two_pow_sub_one,
    Nat.testBit_mul_two_pow, Nat.testBit_div_two_pow]
  by_cases hlow : i < k
  · simp [hlow, Nat.not_le.mpr hlow]
  · have hshift : i - k + k = i := Nat.sub_add_cancel (Nat.not_lt.mp hlow)
    rw [hshift]
    by_cases hhigh : i < 32
    · simp [hlow, hhigh, Nat.not_lt.mp hlow]
    · have hbit : n.toNat.testBit i = false :=
        Nat.testBit_lt_two_pow (Nat.lt_of_lt_of_le n.toNat_lt
          (Nat.pow_le_pow_right (by decide) (Nat.not_lt.mp hhigh)))
      simp [hbit]

/-- A power of two of 32 bits divides 2^32. -/
theorem dvd_size_of_toNat {amount : UInt32} {k : Nat} (hk : amount.toNat = 2 ^ k) :
    amount.toNat ∣ 4294967296 := by
  have hlt := amount.toNat_lt
  rw [hk] at hlt ⊢
  have hle : k ≤ 32 := Nat.le_of_lt ((Nat.pow_lt_pow_iff_right (by decide)).mp hlt)
  exact Nat.pow_dvd_pow 2 hle

theorem roundUp_le_size (n : UInt32) {amount : UInt32} {k : Nat} (hk : amount.toNat = 2 ^ k) :
    roundUp n.toNat amount.toNat ≤ 4294967296 := by
  have hpos : 0 < amount.toNat := hk ▸ Nat.two_pow_pos k
  obtain ⟨q, hq⟩ := dvd_size_of_toNat hk
  have hlt := n.toNat_lt
  rw [roundUp, hq, Nat.mul_comm amount.toNat]
  refine Nat.mul_le_mul_right _ (Nat.lt_succ_iff.mp ?_)
  rw [Nat.div_lt_iff_lt_mul hpos, Nat.succ_mul, Nat.mul_comm q, ← hq]
  omega

/-- **`align` rounds up**, modulo 2^32. -/
theorem align_toNat (ptr : UInt32) {amount : UInt32} {k : Nat} (hk : amount.toNat = 2 ^ k) :
    (align ptr amount).toNat = roundUp ptr.toNat amount.toNat % 4294967296 := by
  have hpos : 0 < amount.toNat := hk ▸ Nat.two_pow_pos k
  obtain ⟨q, hq⟩ := dvd_size_of_toNat hk
  have hsum : (ptr + amount - 1).toNat = (ptr.toNat + amount.toNat - 1) % 4294967296 := by
    rw [UInt32.toNat_sub, UInt32.toNat_add]
    have h1 : (1 : UInt32).toNat = 1 := rfl
    omega
  rw [align, and_not_toNat _ hk, hsum, roundUp]
  generalize ptr.toNat + amount.toNat - 1 = y
  -- 2^32 is a multiple of the amount
  rw [hq, Nat.mod_mul_right_div_self, Nat.mul_comm _ q, Nat.mul_mod_mul_right]

/-! ## One allocation -/

/-- How far the memory is known to reach: `next_page` is the number of pages until it has
grown, and then the end of the memory that was asked for. -/
def Dsmalloc.Bounded (s : Dsmalloc) : Prop :=
  (s.nextPage.toNat = s.memory.pages ∧ 0 < s.memory.pages ∧ s.memory.pages < 65536) ∨
    (s.nextPage.toNat % 65536 = 0 ∧ s.nextPage.toNat ≤ s.memory.bytes ∧
      (s.nextPage = 0 → s.memory.pages = 65536))

theorem Memory.pages_le_max (m : Memory) : m.pages ≤ 65536 :=
  Nat.le_trans m.pages_le m.maxPages_le

theorem Memory.grow_eq_some {m m' : Memory} {delta : UInt32} (h : m.grow delta = some m') :
    m'.pages = m.pages + delta.toNat := by
  rw [Memory.grow] at h
  split at h
  · cases h
    rfl
  · cases h

theorem shiftRight_16_toNat (n : UInt32) : (n >>> 16).toNat = n.toNat / 65536 := by
  rw [UInt32.toNat_shiftRight]
  exact Nat.shiftRight_eq_div_pow _ _

/-- Growing to a page bound that is above the address reaches it. -/
theorem Dsmalloc.Bounded.grow {s : Dsmalloc} (h : s.Bounded) {nextAddr : UInt32} {memory : Memory}
    (habove : s.nextPage < nextAddr)
    (hgrow : s.memory.grow ((align nextAddr wasmPageSize - s.nextPage) >>> 16) = some memory) :
    Dsmalloc.Bounded ⟨nextAddr, align nextAddr wasmPageSize, memory⟩ ∧
      s.memory.pages ≤ memory.pages ∧ nextAddr.toNat ≤ memory.bytes := by
  have hpages := Memory.grow_eq_some hgrow
  have hmax := memory.pages_le_max
  have hmax' := s.memory.pages_le_max
  have hnew : (align nextAddr wasmPageSize).toNat =
      (nextAddr.toNat + 65535) / 65536 * 65536 % 4294967296 :=
    align_toNat nextAddr (k := 16) rfl
  rw [shiftRight_16_toNat, UInt32.toNat_sub, hnew] at hpages
  rw [UInt32.lt_iff_toNat_lt] at habove
  have hlt := nextAddr.toNat_lt
  rw [Bounded, ← UInt32.toNat_inj, hnew]
  rw [Bounded, ← UInt32.toNat_inj] at h
  simp only [Memory.bytes] at h ⊢
  have h0 : (0 : UInt32).toNat = 0 := rfl
  rw [h0] at h ⊢
  -- the pages up to the address; all 65536 of them make a bound of 0 bytes
  obtain ⟨r, hr⟩ : ∃ r, r = (nextAddr.toNat + 65535) / 65536 := ⟨_, rfl⟩
  rw [← hr] at hpages ⊢
  by_cases hfull : r = 65536
  · subst hfull
    omega
  · have hmod : r * 65536 % 4294967296 = r * 65536 := Nat.mod_eq_of_lt (by omega)
    rw [hmod] at hpages ⊢
    omega

/-- **An allocation that ends below 2^32** starts at the next aligned address, and the
memory reaches to its end. -/
theorem Dsmalloc.allocate_spec {s s' : Dsmalloc} (h : s.Bounded) {sz amount ret : UInt32} {k : Nat}
    (hk : amount.toNat = 2 ^ k) (hsz : sz ≠ 0)
    (hfits : roundUp s.nextAddr.toNat amount.toNat + sz.toNat < 4294967296)
    (halloc : s.allocate sz amount = some (ret, s')) :
    ret.toNat = roundUp s.nextAddr.toNat amount.toNat ∧
      s'.nextAddr.toNat = roundUp s.nextAddr.toNat amount.toNat + sz.toNat ∧ s'.Bounded ∧
      s.memory.pages ≤ s'.memory.pages ∧ s'.nextAddr.toNat ≤ s'.memory.bytes := by
  have hret : (align s.nextAddr amount).toNat = roundUp s.nextAddr.toNat amount.toNat := by
    rw [align_toNat _ hk]
    exact Nat.mod_eq_of_lt (by omega)
  have hend : (align s.nextAddr amount + sz).toNat =
      roundUp s.nextAddr.toNat amount.toNat + sz.toNat := by
    rw [UInt32.toNat_add, hret]
    exact Nat.mod_eq_of_lt hfits
  rw [allocate, if_neg hsz] at halloc
  dsimp only at halloc
  split at halloc
  · next habove =>
    split at halloc
    · cases halloc
    · next memory hgrow =>
      cases halloc
      obtain ⟨hbounded, hpages, hreach⟩ := h.grow habove hgrow
      exact ⟨hret, hend, hbounded, hpages, hreach⟩
  · next hbelow =>
    cases halloc
    refine ⟨hret, hend, h, Nat.le_refl _, ?_⟩
    -- no page bound is above the memory
    have hle := UInt32.le_iff_toNat_le.mp (UInt32.not_lt.mp hbelow)
    dsimp only
    refine Nat.le_trans hle ?_
    rcases h with ⟨hfirst, -, -⟩ | ⟨-, hbytes, -⟩
    · rw [hfirst, Memory.bytes]
      omega
    · exact hbytes

/-- An allocation starts where `align` says, and never gives memory back. -/
theorem Dsmalloc.allocate_some {s s' : Dsmalloc} {sz amount ret : UInt32} (hsz : sz ≠ 0)
    (halloc : s.allocate sz amount = some (ret, s')) :
    ret = align s.nextAddr amount ∧ s.memory.pages ≤ s'.memory.pages ∧
      (¬ s.nextPage < ret + sz → s'.memory = s.memory) := by
  rw [allocate, if_neg hsz] at halloc
  dsimp only at halloc
  split at halloc
  · next habove =>
    split at halloc
    · cases halloc
    · next memory hgrow =>
      cases halloc
      have := Memory.grow_eq_some hgrow
      exact ⟨rfl, by dsimp only; omega, fun hbelow => absurd habove hbelow⟩
  · cases halloc
    exact ⟨rfl, Nat.le_refl _, fun _ => rfl⟩

/-! ## One call -/

/-- The size and the alignment that a call passes on to `dsmalloc`. -/
def AllocCall.request : AllocCall → Option (UInt32 × UInt32)
  | malloc size => some (size, 16)
  | posixMemalign alignment size =>
    if invalidAlignment alignment then none else some (size, memalignAmount alignment)
  | calloc count size => some (count * size, 16)
  | realloc _ size => some (size, 16)
  | free _ => none

/-- Every call is at most one allocation. -/
theorem AllocCall.exec_eq (s : Dsmalloc) (call : AllocCall) :
    call.exec s =
      match call.request with
      | none => some (none, s)
      | some (sz, amount) => (s.allocate sz amount).map fun r => (some r.1, r.2) := by
  cases call with
  | posixMemalign alignment n =>
    rw [exec, request, Eosiolib.posixMemalign]
    by_cases hvalid : invalidAlignment alignment = true
    · rw [if_pos hvalid, if_pos hvalid]
    · rw [if_neg hvalid, if_neg hvalid]
  | malloc size => rfl
  | calloc count size => rfl
  | realloc ptr size => rfl
  | free ptr => rfl

/-- An alignment that `posix_memalign` takes is a power of two. -/
theorem toNat_of_valid {alignment : UInt32} (h : invalidAlignment alignment = false) :
    ∃ k, alignment.toNat = 2 ^ k := by
  rw [invalidAlignment, decide_eq_false_iff_not, not_or, not_not, UInt32.not_lt,
    UInt32.le_iff_toNat_le, ← UInt32.toNat_inj, UInt32.toNat_and] at h
  obtain ⟨hle, hand⟩ := h
  have h4 : (4 : UInt32).toNat = 4 := rfl
  rw [h4] at hle
  have hone : (alignment - 1).toNat = alignment.toNat - 1 := by
    rw [UInt32.toNat_sub_of_le]
    · rfl
    · rw [UInt32.le_iff_toNat_le]
      exact Nat.le_trans (by decide) hle
  rw [hone] at hand
  exact (Nat.and_sub_one_eq_zero_iff_isPowerOfTwo (by omega)).mp hand

/-- What is passed on: the size modulo 2^32, and a power of two that the alignment asked
for divides. -/
theorem AllocCall.request_spec {call : AllocCall} {sz amount : UInt32}
    (h : call.request = some (sz, amount)) :
    sz.toNat = call.size % 4294967296 ∧ (∃ k, amount.toNat = 2 ^ k) ∧
      call.alignment ∣ amount.toNat := by
  have hlt : ∀ n : UInt32, n.toNat % 4294967296 = n.toNat := fun n => Nat.mod_eq_of_lt n.toNat_lt
  cases call with
  | malloc n =>
    cases h
    exact ⟨(hlt _).symm, ⟨4, rfl⟩, Nat.dvd_refl _⟩
  | calloc count n =>
    cases h
    exact ⟨UInt32.toNat_mul _ _, ⟨4, rfl⟩, Nat.dvd_refl _⟩
  | realloc ptr n =>
    cases h
    exact ⟨(hlt _).symm, ⟨4, rfl⟩, Nat.dvd_refl _⟩
  | free ptr => cases h
  | posixMemalign amount' n =>
    rw [request] at h
    split at h
    · cases h
    next hvalid =>
    cases h
    obtain ⟨k, hk⟩ := toNat_of_valid (Bool.eq_false_iff.mpr hvalid)
    refine ⟨(hlt _).symm, ?_⟩
    rw [AllocCall.alignment, memalignAmount]
    split
    · exact ⟨⟨k, hk⟩, Nat.dvd_refl _⟩
    · next hsmall =>
      refine ⟨⟨4, rfl⟩, ?_⟩
      have hle := UInt32.le_iff_toNat_le.mp (UInt32.not_lt.mp hsmall)
      have h16 : (16 : UInt32).toNat = 2 ^ 4 := rfl
      rw [hk, h16] at hle ⊢
      exact Nat.pow_dvd_pow 2 ((Nat.pow_le_pow_iff_right (by decide)).mp hle)

/-- Where the block of a call would end, as an integer. -/
def AllocCall.reach (s : Dsmalloc) (call : AllocCall) (amount : UInt32) : Nat :=
  roundUp s.nextAddr.toNat amount.toNat + call.size

/-- The call gets no block, or one that ends below 2^32. -/
def AllocCall.Fits (s : Dsmalloc) (call : AllocCall) : Prop :=
  ∀ sz amount, call.request = some (sz, amount) → sz ≠ 0 → call.reach s amount < 4294967296

/-- What a call does to the heap: nothing but for the memory, or a block more. -/
theorem Heap.step_cases {h h' : Heap} {call : AllocCall} (hstep : h.step call = some h') :
    (h' = h ∧ ∀ sz amount, call.request = some (sz, amount) → sz = 0) ∨
      ∃ sz amount ret s', call.request = some (sz, amount) ∧ sz ≠ 0 ∧
        h.malloc.allocate sz amount = some (ret, s') ∧
        h' = if ret = 0 then ⟨s', h.blocks⟩
          else ⟨s', ⟨ret.toNat, call.size, call.alignment⟩ :: h.blocks⟩ := by
  rw [step, AllocCall.exec_eq] at hstep
  cases hrequest : call.request with
  | none =>
    rw [hrequest] at hstep
    cases hstep
    exact .inl ⟨rfl, fun sz amount h => by cases h⟩
  | some r =>
    obtain ⟨sz, amount⟩ := r
    rw [hrequest] at hstep
    dsimp only at hstep
    rw [Option.map_map] at hstep
    obtain ⟨⟨ret, s'⟩, halloc, rfl⟩ := Option.map_eq_some_iff.mp hstep
    by_cases hsz : sz = 0
    · rw [Dsmalloc.allocate, if_pos hsz] at halloc
      cases halloc
      exact .inl ⟨rfl, fun sz' amount' h => by cases h; exact hsz⟩
    · exact .inr ⟨sz, amount, ret, s', rfl, hsz, halloc, rfl⟩

/-- What holds as long as every block ends below 2^32. -/
structure Heap.Inv (h : Heap) : Prop where
  bounded : h.malloc.Bounded
  pos : 0 < h.malloc.nextAddr.toNat
  next_le : h.malloc.nextAddr.toNat ≤ h.malloc.memory.bytes
  sound : h.Sound
  below : ∀ b ∈ h.blocks, b.start + b.size ≤ h.malloc.nextAddr.toNat

/-- A block behind all the others. -/
theorem Heap.Sound.cons {h : Heap} (hsound : h.Sound) {s : Dsmalloc}
    (hpages : h.malloc.memory.pages ≤ s.memory.pages) {b : AllocBlock}
    (hbehind : ∀ earlier ∈ h.blocks, earlier.start + earlier.size ≤ b.start)
    (haligned : b.alignment ∣ b.start) (hinside : b.start + b.size ≤ s.memory.bytes) :
    Heap.Sound ⟨s, b :: h.blocks⟩ where
  aligned := List.forall_mem_cons.mpr ⟨haligned, hsound.aligned⟩
  inside := List.forall_mem_cons.mpr ⟨hinside, fun b hb =>
    Nat.le_trans (hsound.inside b hb) (Nat.mul_le_mul_right _ hpages)⟩
  apart := List.pairwise_cons.mpr ⟨fun b hb => .inl (hbehind b hb), hsound.apart⟩

/-- **One call that fits** keeps the blocks sound. -/
theorem Heap.Inv.step {h h' : Heap} (hinv : h.Inv) {call : AllocCall}
    (hfits : call.Fits h.malloc) (hstep : h.step call = some h') : h'.Inv := by
  rcases Heap.step_cases hstep with ⟨rfl, -⟩ | ⟨sz, amount, ret, s', hrequest, hsz, halloc, rfl⟩
  · exact hinv
  obtain ⟨hsize, ⟨k, hk⟩, hdvd⟩ := AllocCall.request_spec hrequest
  have hreach := hfits sz amount hrequest hsz
  rw [AllocCall.reach] at hreach
  -- as the block ends below 2^32, its size is not cut
  rw [Nat.mod_eq_of_lt (by omega)] at hsize
  rw [← hsize] at hreach
  obtain ⟨hret, hnext, hbounded, hpages, hle⟩ :=
    Dsmalloc.allocate_spec hinv.bounded hk hsz hreach halloc
  have hround := le_roundUp h.malloc.nextAddr.toNat (hk ▸ Nat.two_pow_pos k : 0 < amount.toNat)
  have hpos := hinv.pos
  have hnull : ret ≠ 0 := by
    rintro rfl
    have h0 : (0 : UInt32).toNat = 0 := rfl
    omega
  rw [if_neg hnull]
  refine ⟨hbounded, by dsimp only; omega, hle, ?_, ?_⟩
  · refine hinv.sound.cons hpages (fun b hb => ?_) ?_ ?_
    · have := hinv.below b hb
      dsimp only
      omega
    · dsimp only
      rw [hret]
      exact Nat.dvd_trans hdvd (dvd_roundUp _ _)
    · dsimp only
      omega
  · refine List.forall_mem_cons.mpr ⟨by dsimp only; omega, fun b hb => ?_⟩
    have := hinv.below b hb
    dsimp only
    omega

/-- **The first call that does not fit** breaks the heap, but for two cases: its block would
start at 2^32, and it gets none, or the block ends at 2^32 and all of the memory is there. -/
theorem Heap.Inv.step_iff {h h' : Heap} (hinv : h.Inv) {call : AllocCall}
    (hstep : h.step call = some h') :
    h'.Sound ↔ call.Fits h.malloc ∨ ∃ sz amount, call.request = some (sz, amount) ∧
      (roundUp h.malloc.nextAddr.toNat amount.toNat = 4294967296 ∨
        call.reach h.malloc amount = 4294967296 ∧ h.malloc.memory.pages = 65536) := by
  by_cases hfits : call.Fits h.malloc
  · exact iff_of_true (hinv.step hfits hstep).sound (.inl hfits)
  rcases Heap.step_cases hstep with ⟨rfl, hzero⟩ | ⟨sz, amount, ret, s', hrequest, hsz, halloc, rfl⟩
  · exact absurd (fun sz amount hrequest hsz => absurd (hzero sz amount hrequest) hsz) hfits
  obtain ⟨hsize, ⟨k, hk⟩, hdvd⟩ := AllocCall.request_spec hrequest
  have hreach : 4294967296 ≤ call.reach h.malloc amount := by
    by_contra hlt
    refine hfits fun sz' amount' hrequest' _ => ?_
    cases hrequest.symm.trans hrequest'
    exact Nat.not_le.mp hlt
  obtain ⟨hret, hpages, hkept⟩ := Dsmalloc.allocate_some hsz halloc
  have hretNat := congrArg UInt32.toNat hret
  rw [align_toNat _ hk] at hretNat
  have hround := le_roundUp h.malloc.nextAddr.toNat (hk ▸ Nat.two_pow_pos k : 0 < amount.toNat)
  have hroundMax := roundUp_le_size h.malloc.nextAddr hk
  have hpos := hinv.pos
  have hother : (call.Fits h.malloc ∨ ∃ sz amount, call.request = some (sz, amount) ∧
      (roundUp h.malloc.nextAddr.toNat amount.toNat = 4294967296 ∨
        call.reach h.malloc amount = 4294967296 ∧ h.malloc.memory.pages = 65536)) ↔
      (roundUp h.malloc.nextAddr.toNat amount.toNat = 4294967296 ∨
        call.reach h.malloc amount = 4294967296 ∧ h.malloc.memory.pages = 65536) := by
    constructor
    · rintro (hfit | ⟨sz', amount', hrequest', hcase⟩)
      · exact absurd hfit hfits
      · cases hrequest.symm.trans hrequest'
        exact hcase
    · exact fun hcase => .inr ⟨sz, amount, hrequest, hcase⟩
  rw [hother]
  by_cases hwrap : roundUp h.malloc.nextAddr.toNat amount.toNat = 4294967296
  · -- the null pointer is no block
    have hnull : ret = 0 := by
      rw [← UInt32.toNat_inj, hretNat, hwrap]
      rfl
    rw [if_pos hnull]
    refine iff_of_true ⟨hinv.sound.aligned, fun b hb => ?_, hinv.sound.apart⟩ (.inl hwrap)
    exact Nat.le_trans (hinv.sound.inside b hb) (Nat.mul_le_mul_right _ hpages)
  rw [Nat.mod_eq_of_lt (by omega)] at hretNat
  have hnull : ret ≠ 0 := by
    rintro rfl
    have h0 : (0 : UInt32).toNat = 0 := rfl
    omega
  rw [if_neg hnull]
  rw [AllocCall.reach] at hreach ⊢
  have hmax := s'.memory.pages_le_max
  constructor
  · intro hsound
    have hinside := hsound.inside _ (List.mem_cons_self ..)
    rw [Memory.bytes] at hinside
    dsimp only at hinside
    -- 65536 pages are all there is, so the block ends with them and nothing was grown
    have hend : roundUp h.malloc.nextAddr.toNat amount.toNat + call.size = 4294967296 := by omega
    have hzero : ret + sz = 0 := by
      rw [← UInt32.toNat_inj, UInt32.toNat_add, hretNat, hsize, Nat.add_mod_mod, hend]
      rfl
    have hmemory := hkept (by rw [hzero]; exact UInt32.not_lt.mpr UInt32.zero_le)
    rw [hmemory] at hinside
    have hmax' := h.malloc.memory.pages_le_max
    exact .inr ⟨hend, by omega⟩
  · rintro (hwrap' | ⟨hend, hfull⟩)
    · exact absurd hwrap' hwrap
    refine hinv.sound.cons hpages (fun b hb => ?_) ?_ ?_
    · have := hinv.below b hb
      dsimp only
      omega
    · dsimp only
      rw [hretNat]
      exact Nat.dvd_trans hdvd (dvd_roundUp _ _)
    · rw [Memory.bytes]
      dsimp only
      omega

/-! ## Runs from the start -/

/-- The heap of a fresh instance. -/
def Heap.start (heapBase : UInt32) (memory : Memory) : Heap := ⟨Dsmalloc.new heapBase memory, []⟩

/-- Every call of the run fits where it is made. -/
def Heap.Fitting (h : Heap) : List AllocCall → Prop
  | [] => True
  | call :: calls => call.Fits h.malloc ∧ ∀ h', h.step call = some h' → h'.Fitting calls

/-- The linker puts the heap behind the data, inside the memory that the instance starts
with. -/
theorem Heap.inv_start {heapBase : UInt32} {memory : Memory} (hpos : 0 < heapBase)
    (hle : heapBase.toNat ≤ memory.bytes) : (Heap.start heapBase memory).Inv := by
  have hmax := memory.pages_le_max
  have hpos : 0 < heapBase.toNat := UInt32.lt_iff_toNat_lt.mp hpos
  have hpages : 0 < memory.pages := by
    rw [Memory.bytes] at hle
    omega
  have hnext : (Heap.start heapBase memory).malloc.nextPage.toNat = memory.pages :=
    UInt32.toNat_ofNat_of_lt' (by rw [UInt32.size]; omega)
  have hnone : ∀ {P : AllocBlock → Prop}, ∀ b ∈ (Heap.start heapBase memory).blocks, P b :=
    fun b hb => by cases hb
  refine ⟨?_, hpos, hle, ⟨hnone, hnone, List.Pairwise.nil⟩, hnone⟩
  by_cases hfull : memory.pages = 65536
  · -- 65536 pages read as bytes are one page
    refine .inr ⟨by rw [hnext, hfull], ?_, fun _ => hfull⟩
    show (Heap.start heapBase memory).malloc.nextPage.toNat ≤ memory.pages * 65536
    rw [hnext]
    omega
  · exact .inl ⟨hnext, hpages, Nat.lt_of_le_of_ne hmax hfull⟩

theorem Heap.Inv.run {h h' : Heap} (hinv : h.Inv) {calls : List AllocCall}
    (hfitting : h.Fitting calls) (hrun : h.run calls = some h') : h'.Inv := by
  induction calls generalizing h with
  | nil =>
    cases hrun
    exact hinv
  | cons call calls ih =>
    obtain ⟨h₁, hstep, hrest⟩ := Option.bind_eq_some_iff.mp hrun
    exact ih (hinv.step hfitting.1 hstep) (hfitting.2 h₁ hstep) hrest

/-- **The allocator is sound as long as every block ends below 2^32**: after every run of
such calls that does not end in an assertion, all blocks are aligned, inside the memory and
apart, and this stays so with one call more exactly when its block ends below 2^32 too, or
there is none, or it ends with the last byte of a memory of 2^32 bytes. -/
theorem heap_sound (heapBase : UInt32) (memory : Memory) (hpos : 0 < heapBase)
    (hle : heapBase.toNat ≤ memory.bytes) (calls : List AllocCall)
    (hfitting : (Heap.start heapBase memory).Fitting calls) (h : Heap)
    (hrun : (Heap.start heapBase memory).run calls = some h) :
    h.Sound ∧ ∀ call h', h.step call = some h' →
      (h'.Sound ↔ call.Fits h.malloc ∨ ∃ sz amount, call.request = some (sz, amount) ∧
        (roundUp h.malloc.nextAddr.toNat amount.toNat = 4294967296 ∨
          call.reach h.malloc amount = 4294967296 ∧ h.malloc.memory.pages = 65536)) := by
  have hinv := (Heap.inv_start hpos hle).run hfitting hrun
  exact ⟨hinv.sound, fun call h' hstep => hinv.step_iff hstep⟩

/-- A memory of two pages that can grow to 528. -/
def smallMemory : Memory := ⟨2, 528, by decide, by decide⟩

/-- A block of one byte at the start of the next page. -/
theorem heap_sound_example : ∃ h,
    (Heap.start 70000 smallMemory).run [.posixMemalign 65536 1] = some h ∧ h.Sound := by
  have hsome : ((Heap.start 70000 smallMemory).run [.posixMemalign 65536 1]).isSome := by
    decide +kernel
  obtain ⟨h, hrun⟩ := Option.isSome_iff_exists.mp hsome
  have hfits : (AllocCall.posixMemalign 65536 1).Fits (Heap.start 70000 smallMemory).malloc := by
    intro sz amount hrequest _
    cases hrequest
    decide +kernel
  exact ⟨h, hrun, (heap_sound 70000 smallMemory (by decide) (by decide)
    [.posixMemalign 65536 1] ⟨hfits, fun _ _ => trivial⟩ h hrun).1⟩

/-- A block that ends behind the memory. -/
theorem not_sound_of_outside {h : Heap}
    (houtside : h.blocks.any fun b => decide (h.malloc.memory.bytes < b.start + b.size)) :
    ¬ h.Sound := by
  intro hsound
  obtain ⟨b, hb, hlt⟩ := List.any_eq_true.mp houtside
  exact absurd (of_decide_eq_true hlt) (Nat.not_lt.mpr (hsound.inside b hb))

/-- A size of nearly 2^32 gets what `next_addr` has wrapped over, and a product that is 16
modulo 2^32 gets 16 bytes. -/
theorem huge_blocks_unsound :
    (∃ h, (Heap.start 70000 smallMemory).run [.malloc 0xfffffff0] = some h ∧ ¬ h.Sound) ∧
      ∃ h, (Heap.start 70000 smallMemory).run [.calloc 0x10000001 16] = some h ∧ ¬ h.Sound := by
  have hrun : ∀ calls, ((Heap.start 70000 smallMemory).run calls).any (fun h =>
      h.blocks.any fun b => decide (h.malloc.memory.bytes < b.start + b.size)) = true →
      ∃ h, (Heap.start 70000 smallMemory).run calls = some h ∧ ¬ h.Sound := by
    intro calls hany
    rw [Option.any_eq_true] at hany
    obtain ⟨h, hrun, houtside⟩ := hany
    exact ⟨h, hrun, not_sound_of_outside houtside⟩
  exact ⟨hrun _ (by decide +kernel), hrun _ (by decide +kernel)⟩

end Microchain.Eosiolib
