import NexusKernel.Memory.KheapInvariant

/-!
# How large an allocation is

`kmalloc` rounds the request up to a multiple of eight and `kmalloc_aligned` adds the
alignment to it, both in 32 bits. A request that wraps gets a block of a few bytes
and a pointer that is not `NULL`.

A run here is any sequence of `kmalloc`, `kmalloc_aligned` (any power of two),
`krealloc` and `kfree` (of `NULL` or a live pointer) and stores of a client into the
payload of a live block.

Results:
* `alignUp_spec`: the aligned pointer, where nothing wraps.
* `krealloc_cases`: what `krealloc` does to a live block, unless its request wraps.
* `heapInv_call`: every call keeps the invariant, a `krealloc` that wraps apart; hence
  `HeapReachable.heapInv`.
* `allocations_large_enough_iff`: exactly which runs get all the bytes they ask for.
* `wrapped_request_gets_nothing`: a request of `0xFFFFFFFF` bytes that is granted.
-/

namespace NexusKernel.Memory

open Tiling

/-! ## Alignment -/

/-- Where `addr + alignment - 1` is an address, the pointer is moved up to the next
    multiple of the alignment. -/
theorem alignUp_spec {addr k : ℕ} (hk : k < 32) (hfits : addr + 2 ^ k ≤ 2 ^ 32) (hpos : 0 < addr) :
    2 ^ k ∣ alignUp addr (2 ^ k) ∧ addr ≤ alignUp addr (2 ^ k) ∧
      alignUp addr (2 ^ k) < addr + 2 ^ k := by
  have hpow : 2 ^ k < 2 ^ 32 := Nat.pow_lt_pow_right (by norm_num) hk
  have hone : 1 ≤ 2 ^ k := Nat.one_le_two_pow
  have hsum : sub32 (u32 (addr + 2 ^ k)) 1 = addr + 2 ^ k - 1 := by
    unfold sub32 u32
    omega
  have hmask : 2 ^ 32 - 1 - sub32 (2 ^ k) 1 = 2 ^ 32 - 2 ^ k := by
    rw [sub32_of_le hpow hone]
    omega
  have heq : alignUp addr (2 ^ k) = 2 ^ k * ((addr + 2 ^ k - 1) / 2 ^ k) := by
    rw [alignUp, hsum, hmask, Nat.mul_comm]
    exact and_high_mask hk.le (by omega)
  have hdiv := Nat.div_add_mod (addr + 2 ^ k - 1) (2 ^ k)
  have hmod := Nat.mod_lt (addr + 2 ^ k - 1) (show 0 < 2 ^ k by omega)
  rw [heq]
  exact ⟨Dvd.intro _ rfl, by omega, by omega⟩

/-! ## Calls -/

/-- What a client can do. -/
inductive HeapCall where
  | kmalloc (size : ℕ)
  | kmallocAligned (size alignment : ℕ)
  | krealloc (ptr size : ℕ)
  | kfree (ptr : ℕ)
  | store (addr : ℕ) (value : Byte)

/-- The live pointers after `krealloc(ptr, size)` has returned `p`. -/
def kreallocLive (live : List ℕ) (ptr size p : ℕ) : List ℕ :=
  if p = 0 then if size = 0 then live.erase ptr else live
  else if p = ptr then live else p :: live.erase ptr

/-- One call or store: the pointer returned (0 where there is none) and the state after
    it. What `kmalloc_aligned` makes live is the block that its `kmalloc` returned. -/
def heapCall (s : HeapState) : HeapCall → Option (ℕ × HeapState)
  | .kmalloc size =>
    if size < 2 ^ 32 then
      (kmalloc s.heap size).map fun r =>
        (r.1, { heap := r.2, live := if r.1 = 0 then s.live else r.1 :: s.live })
    else none
  | .kmallocAligned size alignment =>
    if size < 2 ^ 32 ∧ ∃ k < 32, alignment = 2 ^ k then
      (kmallocAligned s.heap size alignment).bind fun r =>
        (kmalloc s.heap (u32 (size + alignment))).map fun q =>
          (r.1, { heap := r.2, live := if q.1 = 0 then s.live else q.1 :: s.live })
    else none
  | .krealloc ptr size =>
    if size < 2 ^ 32 ∧ (ptr = 0 ∨ ptr ∈ s.live) then
      (krealloc s.heap ptr size).map fun r =>
        (r.1, { heap := r.2, live := kreallocLive s.live ptr size r.1 })
    else none
  | .kfree ptr => (heapStep s (.kfree ptr)).map fun t => (0, t)
  | .store addr value => (heapStep s (.store addr value)).map fun t => (0, t)

/-- The state after a call. -/
def heapCallStep (s : HeapState) (c : HeapCall) : Option HeapState := (heapCall s c).map Prod.snd

/-- The size and the alignment asked for. -/
def HeapCall.request : HeapCall → Option (ℕ × ℕ)
  | .kmalloc size => some (size, 1)
  | .kmallocAligned size alignment => some (size, alignment)
  | .krealloc _ size => some (size, 1)
  | _ => none

/-- The bytes that `kmalloc` has to find, computed without wrap-around. -/
def HeapCall.asked : HeapCall → ℕ
  | .kmalloc size => size
  | .kmallocAligned size alignment => size + alignment
  | .krealloc _ size => size
  | _ => 0

/-- The range of `n` bytes from `p` on lies in the payload of one live block of
    `heap_area`. -/
def InBlock (A : HeapArea) (s : HeapState) (p n : ℕ) : Prop :=
  ∃ b ∈ blockList s.heap, b.free = false ∧ b.addr + 16 ∈ s.live ∧ A.addr ≤ b.addr ∧
    b.addr + 16 + b.size ≤ A.addr + kheapSize ∧ b.addr + 16 ≤ p ∧ p + n ≤ b.addr + 16 + b.size

/-- If the call returns a pointer, the bytes asked for are there, aligned. -/
def LargeEnough (A : HeapArea) (s : HeapState) (c : HeapCall) : Prop :=
  ∀ n a p t, c.request = some (n, a) → heapCall s c = some (p, t) → p ≠ 0 → InBlock A t p n ∧ a ∣ p

/-- If the call returns a pointer, the request does not wrap when it is rounded up. -/
def NoWrap (s : HeapState) (c : HeapCall) : Prop :=
  ∀ p t, heapCall s c = some (p, t) → p ≠ 0 → c.asked ≤ 2 ^ 32 - 8

/-! ## `krealloc` keeps the invariant -/

section

variable {A : HeapArea} {s : HeapState} {cs : List Cell}

theorem HeapInv.zero_not_mem (h : HeapInv A s cs) : 0 ∉ s.live := by
  intro h0
  obtain ⟨x, n, -, hx⟩ := (h.live 0).mp h0
  omega

theorem le_roundSize {size : ℕ} (h : size ≤ 2 ^ 32 - 8) : size ≤ roundSize size := by
  obtain ⟨-, hle, -⟩ | ⟨hwrap, -⟩ := roundSize_cases (show size < 2 ^ 32 by omega)
  · exact hle
  · omega

/-- What `krealloc` leaves when it moves the block of `ptr`: the tiling `cs'`, with the
    old bytes at the start of the new block, and every other block as it was. -/
structure Moved (A : HeapArea) (s : HeapState) (cs : List Cell) (ptr size : ℕ) (r : ℕ × Kheap)
    (cs' : List Cell) : Prop where
  inv : HeapInv A { heap := r.2, live := r.1 :: s.live.erase ptr } cs'
  fresh : r.1 ∉ s.live
  block : ∃ x n, Used 16 A.addr cs' x n ∧ r.1 = x + 16 ∧ size ≤ n
  copied : ∀ i < blockSize s.heap.mem (sub32 ptr headerSize),
    r.2.mem (r.1 + i) = s.heap.mem (ptr + i)
  others : ∀ x n, Used 16 A.addr cs x n → x + 16 ≠ ptr → Used 16 A.addr cs' x n ∧
    ∀ y, x + 16 ≤ y → y < x + 16 + n → r.2.mem y = s.heap.mem y

/-- The payloads of two live blocks are apart. -/
theorem HeapInv.payloads_apart (h : HeapInv A s cs) {p q : ℕ} (hp : p ∈ s.live) (hq : q ∈ s.live)
    (hne : p ≠ q) :
    p + blockSize s.heap.mem (sub32 p headerSize) ≤ q ∨
      q + blockSize s.heap.mem (sub32 q headerSize) ≤ p := by
  have hp' := h.used_of_live hp
  have hq' := h.used_of_live hq
  obtain ⟨x, n, -, rfl⟩ := (h.live p).mp hp
  obtain ⟨y, k, -, rfl⟩ := (h.live q).mp hq
  obtain ⟨he, -⟩ | hd | hd := placed_disjoint hp' hq'
  · omega
  · simp only at hd
    omega
  · simp only at hd
    omega

/-- The copy of `krealloc`, of the whole payload of `ptr` into a block that is large
    enough, and the release of the old block. -/
theorem heapInv_moved (h : HeapInv A s cs) {ptr newPtr : ℕ} (hptr : ptr ∈ s.live)
    (hnew : newPtr ∈ s.live) (hne : newPtr ≠ ptr) {k : ℕ}
    (hold : k = blockSize s.heap.mem (sub32 ptr headerSize))
    (hk : k ≤ blockSize s.heap.mem (sub32 newPtr headerSize)) {heap : Kheap}
    (hheap : heap = kfree { s.heap with mem := memcpy s.heap.mem newPtr ptr k } ptr) :
    ∃ cs', HeapInv A { heap := heap, live := s.live.erase ptr } cs' ∧
      (∀ x n, Used 16 A.addr cs x n → x + 16 ≠ ptr → Used 16 A.addr cs' x n) ∧
      (∀ i < k, heap.mem (newPtr + i) = s.heap.mem (ptr + i)) ∧
      ∀ x n, Used 16 A.addr cs x n → x + 16 ≠ newPtr → ∀ y, x + 16 ≤ y → y < x + 16 + n →
        heap.mem y = s.heap.mem y := by
  have hcopy := heapInv_overwrite h (memcpy s.heap.mem newPtr ptr k) hnew (by
    intro y hy
    exact memcpy_outside (by omega))
  obtain ⟨cs', hfree, hkeep, hoff⟩ := heapInv_kfree hcopy hptr
  rw [← hheap] at hfree hoff
  have hapart := h.payloads_apart hnew hptr hne
  have hused := h.used_of_live hnew
  obtain ⟨x₁, n₁, -, rfl⟩ := (h.live newPtr).mp hnew
  rw [Nat.add_sub_cancel] at hused
  refine ⟨cs', hfree, fun x n hx hxp => (hkeep x n).mpr ⟨hx, hxp⟩, ?_, ?_⟩
  · intro i hi
    rw [hoff _ (offHeaders_of_placed hused (by omega) (by simp only; omega))]
    simp only
    rw [memcpy_eq (by omega), copyIn, if_pos (by omega), Nat.add_sub_cancel_left]
  · intro x n hx hxn y h1 h2
    rw [hoff y (offHeaders_of_placed hx h1 h2)]
    apply memcpy_outside
    obtain ⟨he, -⟩ | hd | hd := placed_disjoint hx hused
    · omega
    · simp only at hd
      omega
    · simp only at hd
      omega

/-- After `kmalloc` has found a new block, the copy and the release of the old block move
    it. -/
theorem exists_moved (h : HeapInv A s cs) {ptr size : ℕ} (hptr : ptr ∈ s.live)
    (hsmall : blockSize s.heap.mem (sub32 ptr headerSize) < size) (hsize : size ≤ 2 ^ 32 - 8)
    {q : ℕ × Kheap} (hq : kmalloc s.heap size = some q) (hq0 : q.1 ≠ 0) :
    ∃ cs', Moved A s cs ptr size
      (q.1, kfree { q.2 with
        mem := memcpy q.2.mem q.1 ptr (blockSize q.2.mem (sub32 ptr headerSize)) } ptr) cs' := by
  obtain ⟨cs₁, h₁, hkeep, hblock, hoff₁⟩ := heapInv_kmalloc h hq
  simp only [if_neg hq0] at h₁
  obtain ⟨x, n, hx, hxq, hn⟩ := hblock hq0
  have hle : size ≤ n := (le_roundSize hsize).trans hn
  have hfresh : q.1 ∉ s.live := (List.nodup_cons.mp h₁.nodup).1
  have hne : q.1 ≠ ptr := fun he => hfresh (he ▸ hptr)
  have hmem : ptr ∈ q.1 :: s.live := List.mem_cons_of_mem _ hptr
  have hused := h.used_of_live hptr
  -- the block that is left keeps its size and its bytes through `kmalloc`
  have hold : blockSize q.2.mem (sub32 ptr headerSize) =
      blockSize s.heap.mem (sub32 ptr headerSize) :=
    (h₁.used_of_live hmem).size_unique (by norm_num) (hkeep _ _ hused)
  have hnewSize : blockSize q.2.mem (sub32 q.1 headerSize) = n := by
    have hused' := h₁.used_of_live List.mem_cons_self
    rw [show q.1 - 16 = x by omega] at hused'
    exact hused'.size_unique (by norm_num) hx
  have hpayload : ∀ y k, Used 16 A.addr cs y k → ∀ z, y + 16 ≤ z → z < y + 16 + k →
      q.2.mem z = s.heap.mem z := by
    intro y k hy z h1 h2
    exact hoff₁ z (offHeaders_of_placed (hkeep y k hy) h1 h2)
  obtain ⟨cs₂, h₂, hkeep₂, hcopied, hothers⟩ :=
    heapInv_moved h₁ hmem List.mem_cons_self hne rfl (by simp only; omega) rfl
  simp only at h₂ hcopied hothers
  rw [List.erase_cons_tail (by simpa using hne)] at h₂
  obtain ⟨x₀, -, -, hx₀⟩ := (h.live ptr).mp hptr
  refine ⟨cs₂, h₂, hfresh, ⟨x, n, hkeep₂ x n hx (by omega), hxq, hle⟩, ?_, ?_⟩
  · intro i hi
    rw [hcopied i (by omega)]
    exact hpayload _ _ hused _ (by omega) (by omega)
  · intro y k hy hyp
    refine ⟨hkeep₂ y k (hkeep y k hy) hyp, ?_⟩
    intro z h1 h2
    have hyq : y + 16 ≠ q.1 := by
      intro he
      exact hfresh (he ▸ (h.live _).mpr ⟨y, k, hy, rfl⟩)
    rw [hothers y k (hkeep y k hy) hyq z h1 h2]
    exact hpayload y k hy z h1 h2

/-- `krealloc` of a live pointer: it fails and changes nothing, finds the block large
    enough as it is, or moves it. -/
theorem krealloc_cases (h : HeapInv A s cs) {ptr size : ℕ} (hptr : ptr ∈ s.live) (hsize : size ≠ 0)
    {r : ℕ × Kheap} (hk : krealloc s.heap ptr size = some r)
    (hwrap : r.1 ≠ 0 → size ≤ 2 ^ 32 - 8) :
    r = (0, s.heap) ∨
      (r = (ptr, s.heap) ∧ size ≤ blockSize s.heap.mem (sub32 ptr headerSize)) ∨
      (blockSize s.heap.mem (sub32 ptr headerSize) < size ∧ ∃ cs', Moved A s cs ptr size r cs') := by
  have hnull : ptr ≠ 0 := fun h0 => h.zero_not_mem (h0 ▸ hptr)
  unfold krealloc at hk
  rw [if_neg hnull, if_neg hsize] at hk
  dsimp only at hk
  by_cases hfit : size ≤ blockSize s.heap.mem (sub32 ptr headerSize)
  · rw [if_pos hfit] at hk
    exact Or.inr (Or.inl ⟨(Option.some_inj.mp hk).symm, hfit⟩)
  rw [if_neg hfit, Option.map_eq_some_iff] at hk
  obtain ⟨q, hq, rfl⟩ := hk
  by_cases hq0 : q.1 = 0
  · left
    rw [if_pos hq0, h.kmalloc_fail hq hq0]
  · right
    right
    have hsmall := Nat.lt_of_not_le hfit
    rw [if_neg hq0] at hwrap ⊢
    exact ⟨hsmall, exists_moved h hptr hsmall (hwrap hq0) hq hq0⟩

theorem heapInv_krealloc (h : HeapInv A s cs) {ptr size : ℕ} (hptr : ptr = 0 ∨ ptr ∈ s.live)
    {r : ℕ × Kheap} (hk : krealloc s.heap ptr size = some r) (hwrap : r.1 ≠ 0 → size ≤ 2 ^ 32 - 8) :
    ∃ cs', HeapInv A { heap := r.2, live := kreallocLive s.live ptr size r.1 } cs' ∧
      (r.1 ≠ 0 → ∃ x n, Used 16 A.addr cs' x n ∧ r.1 = x + 16 ∧ size ≤ n) := by
  unfold kreallocLive
  by_cases hnull : ptr = 0
  · -- `krealloc(NULL, size)` is `kmalloc(size)`
    rw [krealloc, if_pos hnull] at hk
    obtain ⟨cs', h', -, hsize, -⟩ := heapInv_kmalloc h hk
    have herase : s.live.erase ptr = s.live :=
      List.erase_of_not_mem (hnull ▸ h.zero_not_mem)
    have hlive : (if r.1 = 0 then if size = 0 then s.live.erase ptr else s.live
        else if r.1 = ptr then s.live else r.1 :: s.live.erase ptr) =
        if r.1 = 0 then s.live else r.1 :: s.live := by
      rw [herase, hnull, ite_self]
      split_ifs <;> rfl
    rw [hlive]
    refine ⟨cs', h', ?_⟩
    intro hr
    obtain ⟨x, n, hx, hxr, hn⟩ := hsize hr
    exact ⟨x, n, hx, hxr, (le_roundSize (hwrap hr)).trans hn⟩
  have hlive : ptr ∈ s.live := hptr.resolve_left hnull
  by_cases hzero : size = 0
  · rw [krealloc, if_neg hnull, if_pos hzero] at hk
    obtain rfl := Option.some_inj.mp hk
    obtain ⟨cs', h', -⟩ := heapInv_kfree h hlive
    exact ⟨cs', by rw [if_pos rfl, if_pos hzero]; exact h', fun hr => absurd rfl hr⟩
  obtain rfl | ⟨rfl, hfit⟩ | ⟨-, cs', hmoved⟩ := krealloc_cases h hlive hzero hk hwrap
  · exact ⟨cs, by rw [if_pos rfl, if_neg hzero]; exact h, fun hr => absurd rfl hr⟩
  · refine ⟨cs, by rw [if_neg hnull, if_pos rfl]; exact h, fun _ => ⟨ptr - 16, _, h.used_of_live hlive,
      ?_, hfit⟩⟩
    obtain ⟨x, n, -, rfl⟩ := (h.live ptr).mp hlive
    omega
  · obtain ⟨x, n, hx, hxr, hn⟩ := hmoved.block
    have hne : r.1 ≠ ptr := fun he => hmoved.fresh (he ▸ hlive)
    exact ⟨cs', by rw [if_neg (by omega), if_neg hne]; exact hmoved.inv, fun _ => ⟨x, n, hx, hxr, hn⟩⟩

/-! ## Every call -/

theorem NoWrap.krealloc {c : HeapCall} {p : ℕ} {t : HeapState} (h : NoWrap s c)
    (hcall : heapCall s c = some (p, t)) :
    ∀ ptr size, c = .krealloc ptr size → p ≠ 0 → size ≤ 2 ^ 32 - 8 := by
  intro ptr size hc hp
  subst hc
  exact h p t hcall hp

theorem HeapInv.inBlock (h : HeapInv A s cs) {x n p k : ℕ} (hx : Used 16 A.addr cs x n)
    (hp : x + 16 ≤ p) (hk : p + k ≤ x + 16 + n) : InBlock A s p k := by
  obtain ⟨b, hb, rfl, hsize, hfree⟩ := exists_mem_cellBlocks (p := 0) hx
  simp only at hsize hfree
  have hbounds := hx.bounds
  rw [h.span] at hbounds
  refine ⟨b, by rw [h.blockList_eq]; exact hb, hfree, (h.live _).mpr ⟨_, n, hx, rfl⟩, ?_, ?_, hp, ?_⟩
  · exact hbounds.1
  · rw [hsize]
    exact hbounds.2
  · rw [hsize]
    exact hk

/-- A range that lies in a block is shorter than `heap_area`. -/
theorem InBlock.le_kheapSize {p n : ℕ} (h : InBlock A s p n) : n ≤ kheapSize := by
  obtain ⟨b, -, -, -, hlow, hhigh, hp, hn⟩ := h
  omega

theorem heapCall_kmallocAligned {size alignment p : ℕ} {t : HeapState}
    (hcall : heapCall s (.kmallocAligned size alignment) = some (p, t)) :
    size < 2 ^ 32 ∧ (∃ k < 32, alignment = 2 ^ k) ∧
      ∃ q, kmalloc s.heap (u32 (size + alignment)) = some q ∧
        p = (if q.1 = 0 then 0 else alignUp q.1 alignment) ∧
        t = { heap := q.2, live := if q.1 = 0 then s.live else q.1 :: s.live } := by
  simp only [heapCall, kmallocAligned] at hcall
  split_ifs at hcall with hvalid
  refine ⟨hvalid.1, hvalid.2, ?_⟩
  cases hq : kmalloc s.heap (u32 (size + alignment)) with
  | none =>
    rw [hq] at hcall
    simp at hcall
  | some q =>
    rw [hq] at hcall
    simp only [Option.map_some, Option.bind_some, Option.some.injEq, Prod.mk.injEq] at hcall
    exact ⟨q, rfl, hcall.1.symm, hcall.2.symm⟩

/-- A call other than a `krealloc` that wraps keeps the invariant, and if its request does
    not wrap it gets the bytes it asks for. -/
theorem heapInv_call (h : HeapInv A s cs) {c : HeapCall} {p : ℕ} {t : HeapState}
    (hcall : heapCall s c = some (p, t))
    (hwrap : ∀ ptr size, c = .krealloc ptr size → p ≠ 0 → size ≤ 2 ^ 32 - 8) :
    (∃ cs', HeapInv A t cs') ∧ ∀ n a, c.request = some (n, a) → p ≠ 0 → c.asked ≤ 2 ^ 32 - 8 →
      InBlock A t p n ∧ a ∣ p := by
  cases c with
  | kmalloc size =>
    simp only [heapCall] at hcall
    split_ifs at hcall
    obtain ⟨r, hr, heq⟩ := Option.map_eq_some_iff.mp hcall
    obtain ⟨rfl, rfl⟩ := Prod.mk.inj heq
    obtain ⟨cs', h', -, hsize, -⟩ := heapInv_kmalloc h hr
    refine ⟨⟨cs', h'⟩, ?_⟩
    intro n a hreq hp hasked
    obtain ⟨rfl, rfl⟩ := Prod.mk.inj (Option.some_inj.mp hreq)
    obtain ⟨x, n, hx, hxr, hn⟩ := hsize hp
    have hle : size ≤ n := (le_roundSize hasked).trans hn
    exact ⟨h'.inBlock hx (by omega) (by omega), one_dvd _⟩
  | kmallocAligned size alignment =>
    obtain ⟨hlt, ⟨k, hk, rfl⟩, q, hq, rfl, rfl⟩ := heapCall_kmallocAligned hcall
    obtain ⟨cs', h', -, hsize, -⟩ := heapInv_kmalloc h hq
    refine ⟨⟨cs', h'⟩, ?_⟩
    intro n a hreq hp hasked
    obtain ⟨rfl, rfl⟩ := Prod.mk.inj (Option.some_inj.mp hreq)
    have hq0 : q.1 ≠ 0 := by
      intro h0
      exact hp (if_pos h0)
    have hptr : (if q.1 = 0 then 0 else alignUp q.1 (2 ^ k)) = alignUp q.1 (2 ^ k) := if_neg hq0
    rw [hptr] at hp ⊢
    obtain ⟨x, n, hx, hxq, hn⟩ := hsize hq0
    have hasked' : size + 2 ^ k ≤ 2 ^ 32 - 8 := hasked
    rw [u32_of_lt (by omega)] at hn
    have hle := (le_roundSize hasked').trans hn
    have hbounds := hx.bounds
    have hfits := h'.fits
    obtain ⟨hdvd, hge, hlt'⟩ := alignUp_spec hk (show q.1 + 2 ^ k ≤ 2 ^ 32 by omega) (by omega)
    exact ⟨h'.inBlock hx (by omega) (by omega), hdvd⟩
  | krealloc ptr size =>
    simp only [heapCall] at hcall
    split_ifs at hcall with hvalid
    obtain ⟨r, hr, heq⟩ := Option.map_eq_some_iff.mp hcall
    obtain ⟨rfl, rfl⟩ := Prod.mk.inj heq
    obtain ⟨cs', h', hsize⟩ := heapInv_krealloc h hvalid.2 hr (hwrap ptr size rfl)
    refine ⟨⟨cs', h'⟩, ?_⟩
    intro n a hreq hp hasked
    obtain ⟨rfl, rfl⟩ := Prod.mk.inj (Option.some_inj.mp hreq)
    obtain ⟨x, n, hx, hxr, hn⟩ := hsize hp
    exact ⟨h'.inBlock hx (by omega) (by omega), one_dvd _⟩
  | kfree ptr =>
    obtain ⟨u, hu, heq⟩ := Option.map_eq_some_iff.mp hcall
    obtain ⟨rfl, rfl⟩ := Prod.mk.inj heq
    obtain ⟨cs', h', -⟩ := heapInv_step h hu
    exact ⟨⟨cs', h'⟩, fun n a _ hp _ => absurd rfl hp⟩
  | store addr value =>
    obtain ⟨u, hu, heq⟩ := Option.map_eq_some_iff.mp hcall
    obtain ⟨rfl, rfl⟩ := Prod.mk.inj heq
    obtain ⟨cs', h', -⟩ := heapInv_step h hu
    exact ⟨⟨cs', h'⟩, fun n a _ hp _ => absurd rfl hp⟩

/-- The states a client reaches from `kheap_init`. A pointer that `kmalloc_aligned` has
    moved is not live, and is not passed to `kfree`; a `krealloc` whose size wraps, which
    copies past the end of its block, is not called. -/
inductive HeapReachable (A : HeapArea) : HeapState → Prop
  | boot (m : Mem) : HeapReachable A (heapBoot A m)
  | call {s t : HeapState} {c : HeapCall} {p : ℕ} (hs : HeapReachable A s)
      (hcall : heapCall s c = some (p, t))
      (hwrap : ∀ ptr size, c = .krealloc ptr size → p ≠ 0 → size ≤ 2 ^ 32 - 8) :
      HeapReachable A t

theorem HeapReachable.heapInv (h : HeapReachable A s) : ∃ cs, HeapInv A s cs := by
  induction h with
  | boot m => exact ⟨_, heapInv_boot A m⟩
  | call _ hcall hwrap ih =>
    obtain ⟨cs, h⟩ := ih
    exact (heapInv_call h hcall hwrap).1

/-- A call that gets the bytes it asks for did not wrap: they fit in `heap_area`. -/
theorem noWrap_of_largeEnough {c : HeapCall} (h : LargeEnough A s c) : NoWrap s c := by
  intro p t hcall hp
  cases c with
  | kmalloc size =>
    have hle := (h size 1 p t rfl hcall hp).1.le_kheapSize
    unfold kheapSize at hle
    show size ≤ 2 ^ 32 - 8
    omega
  | kmallocAligned size alignment =>
    have hle := (h size alignment p t rfl hcall hp).1.le_kheapSize
    obtain ⟨-, ⟨k, hk, rfl⟩, -⟩ := heapCall_kmallocAligned hcall
    have hpow : 2 ^ k ≤ 2 ^ 31 := Nat.pow_le_pow_right (by norm_num) (by omega)
    unfold kheapSize at hle
    show size + 2 ^ k ≤ 2 ^ 32 - 8
    omega
  | krealloc ptr size =>
    have hle := (h size 1 p t rfl hcall hp).1.le_kheapSize
    unfold kheapSize at hle
    show size ≤ 2 ^ 32 - 8
    omega
  | kfree ptr => exact Nat.zero_le _
  | store addr value => exact Nat.zero_le _

theorem largeEnough_iff (h : HeapInv A s cs) (c : HeapCall) : LargeEnough A s c ↔ NoWrap s c := by
  constructor
  · exact noWrap_of_largeEnough
  · intro hwrap n a p t hreq hcall hp
    exact (heapInv_call h hcall (hwrap.krealloc hcall)).2 n a hreq hp (hwrap p t hcall hp)

end

/-- A run from `kheap_init` gets, from every call that returns a pointer, an aligned
    range of the size asked for inside one live block, iff no request that returns a
    pointer wraps: `size`, for `kmalloc_aligned` `size + alignment`, is at most
    `2 ^ 32 - 8`. -/
theorem allocations_large_enough_iff (A : HeapArea) (m : Mem) (cs : List HeapCall) (u : HeapState)
    (hrun : run heapCallStep (heapBoot A m) cs = some u) :
    Meets heapCallStep (LargeEnough A) (heapBoot A m) cs ↔
      Meets heapCallStep NoWrap (heapBoot A m) cs := by
  refine meets_congr (fun s => ∃ cs, HeapInv A s cs) ?_ ?_ ⟨_, heapInv_boot A m⟩ hrun
  · intro s c t ⟨cs, h⟩ _
    exact largeEnough_iff h c
  · intro s c t ⟨cs, h⟩ hwrap hstep
    obtain ⟨r, hr, rfl⟩ := Option.map_eq_some_iff.mp hstep
    exact (heapInv_call h hr (NoWrap.krealloc hwrap hr)).1

/-- A run that uses all three entry points. -/
theorem allocations_large_enough_iff_at2M :
    ∃ u, run heapCallStep (heapBoot heapAreaAt2M fun _ => 0)
        [.kmalloc 24, .kmallocAligned 16 64, .krealloc 0x200010 100] = some u ∧
      Meets heapCallStep (LargeEnough heapAreaAt2M) (heapBoot heapAreaAt2M fun _ => 0)
        [.kmalloc 24, .kmallocAligned 16 64, .krealloc 0x200010 100] := by
  obtain ⟨u, hu⟩ := Option.isSome_iff_exists.mp
    (show (run heapCallStep (heapBoot heapAreaAt2M fun _ => 0)
      [.kmalloc 24, .kmallocAligned 16 64, .krealloc 0x200010 100]).isSome = true by decide +kernel)
  refine ⟨u, hu, (allocations_large_enough_iff heapAreaAt2M _ _ u hu).mpr ?_⟩
  refine ⟨fun _ _ _ _ => ?_, fun _ _ => ⟨fun _ _ _ _ => ?_, fun _ _ => ⟨fun _ _ _ _ => ?_,
    fun _ _ => trivial⟩⟩⟩
  all_goals
    unfold HeapCall.asked
    norm_num

/-- On the fresh heap `kmalloc(0xFFFFFFFF)` returns a block with an empty payload. -/
theorem wrapped_request_gets_nothing :
    ∃ t, heapCall (heapBoot heapAreaAt2M fun _ => 0) (.kmalloc 0xFFFFFFFF) = some (0x200010, t) ∧
      (blockList t.heap).head? = some ⟨0x200000, 0, false, 0x200010, 0⟩ ∧
      ¬ LargeEnough heapAreaAt2M (heapBoot heapAreaAt2M fun _ => 0) (.kmalloc 0xFFFFFFFF) := by
  obtain ⟨r, hr⟩ := Option.isSome_iff_exists.mp (show (heapCall (heapBoot heapAreaAt2M fun _ => 0)
    (.kmalloc 0xFFFFFFFF)).isSome = true by decide +kernel)
  have hptr : (heapCall (heapBoot heapAreaAt2M fun _ => 0) (.kmalloc 0xFFFFFFFF)).map Prod.fst =
      some 0x200010 := by decide +kernel
  have hhead : (heapCall (heapBoot heapAreaAt2M fun _ => 0) (.kmalloc 0xFFFFFFFF)).map
      (fun r => (blockList r.2.heap).head?) = some (some ⟨0x200000, 0, false, 0x200010, 0⟩) := by
    decide +kernel
  rw [hr, Option.map_some, Option.some_inj] at hptr hhead
  refine ⟨r.2, by rw [hr, ← hptr], hhead, ?_⟩
  intro hlarge
  have hasked := noWrap_of_largeEnough hlarge r.1 r.2 hr (by rw [hptr]; norm_num)
  exact absurd hasked (by decide)

end NexusKernel.Memory
