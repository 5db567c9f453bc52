import Meld.Mem.Pool

/-!
# The pool is safe for blocks that can hold a pointer

A block that is given back gets the link of the list of free objects in its first eight bytes. When
every size is at least eight, these bytes are the block's own: `Inv` says that the blocks and the
unused rests of the chunks are all apart, and that the list of free objects of a group reads the
freed blocks of its size. A smaller block is given back with a write into the next one
(`pool_safe_iff`).
-/

namespace Meld.Mem

open Lib

/-! ### Groups -/

/-- A group of blocks that can hold a pointer, with its chunks in the given ranges. -/
structure ChunkGroup.Ok (given : List Block) (n : ℕ) (g : ChunkGroup) : Prop where
  size : g.size = n
  num : 0 < g.numElemsPerChunk
  first : g.newChunk = none → g.numElemsPerChunk = initialNumElems
  chunk : ∀ c, g.newChunk = some c → c.bottom ≤ c.cur ∧ c.cur ≤ c.top ∧ 0 < c.bottom ∧
    c.top ≤ 2 ^ 63 ∧ c.top = c.bottom + n * g.numElemsPerChunk ∧ c.region ∈ given

/-- The sizes for which a chunk can be asked for and that can hold a pointer. -/
def Fits (n : ℕ) : Prop := 8 ≤ n ∧ n < 2 ^ 58

namespace ChunkGroup

variable {g : ChunkGroup} {n bottom : ℕ} {given : List Block} {mem : Memory}

theorem Ok.new (given : List Block) (n : ℕ) : Ok given n (ChunkGroup.new n) :=
  ⟨rfl, Nat.succ_pos _, fun _ => rfl, nofun⟩

theorem Ok.mono (h : Ok given n g) {given' : List Block} (hsub : given ⊆ given') :
    Ok given' n g :=
  ⟨h.size, h.num, h.first, fun c hc =>
    let ⟨h₁, h₂, h₃, h₄, h₅, h₆⟩ := h.chunk c hc
    ⟨h₁, h₂, h₃, h₄, h₅, hsub h₆⟩⟩

/-- A chunk has room for a block exactly when its end is not passed. -/
theorem chunk_allocate {c : Chunk} (hn : n < 2 ^ 58) (htop : c.top ≤ 2 ^ 63)
    (hcur : c.cur ≤ c.top) :
    c.allocate n =
      ({ c with cur := c.cur + n }, if c.top < c.cur + n then none else some c.cur) := by
  have hmod : (c.cur + n) % 2 ^ 64 = c.cur + n := Nat.mod_eq_of_lt (by omega)
  simp only [Chunk.allocate, hmod]
  split_ifs <;> rfl

/-- A new chunk has room for a block. -/
theorem addChunk_spec (hn : g.size < 2 ^ 58) (hnum : 0 < g.numElemsPerChunk)
    (htotal : g.size * g.numElemsPerChunk < 2 ^ 64)
    (hbottom : bottom + g.size * g.numElemsPerChunk ≤ 2 ^ 63) :
    g.addChunk bottom =
      ({ g with
          newChunk := some ⟨bottom + g.size, bottom, bottom + g.size * g.numElemsPerChunk⟩ },
        some bottom) := by
  have hle : g.size ≤ g.size * g.numElemsPerChunk := Nat.le_mul_of_pos_right _ hnum
  have hnew : Chunk.new g.size g.numElemsPerChunk bottom =
      ⟨bottom, bottom, bottom + g.size * g.numElemsPerChunk⟩ := by
    rw [Chunk.new, Chunk.total, Nat.mod_eq_of_lt htotal]
  have halloc := chunk_allocate (c := ⟨bottom, bottom, bottom + g.size * g.numElemsPerChunk⟩) hn
    hbottom (Nat.le_add_right _ _)
  rw [if_neg (by simpa using hle)] at halloc
  rw [addChunk, hnew, halloc]

/-- The chunk that is made next: its number of elements, and the bytes that are asked for. -/
theorem Ok.next (h : Ok given n g) {c : Chunk} (hc : g.newChunk = some c) :
    0 < moreElems g.numElemsPerChunk ∧ n * moreElems g.numElemsPerChunk < 2 ^ 64 := by
  obtain ⟨-, -, hpos, htop, heq, -⟩ := h.chunk c hc
  have hnum := h.num
  have hdouble : n * (g.numElemsPerChunk * 2) = n * g.numElemsPerChunk * 2 := by ring
  rw [moreElems]
  split_ifs
  · exact ⟨by omega, by omega⟩
  · exact ⟨hnum, by omega⟩

/-- A block comes from the list of free objects, from the last chunk or from a new one. -/
inductive Allocated (g : ChunkGroup) (mem : Memory) (bottom : ℕ) :
    ChunkGroup → ℕ → Option ℕ → Prop
  | reuse {a : ℕ} (h : g.freeObjs = some a) :
    Allocated g mem bottom (g.setFree (mem.wordNext a)) a none
  | carve {c : Chunk} (hfree : g.freeObjs = none) (hc : g.newChunk = some c)
    (hroom : c.cur + g.size ≤ c.top) :
    Allocated g mem bottom { g with newChunk := some { c with cur := c.cur + g.size } } c.cur none
  | grow {old : List Chunk} {num : ℕ} (hfree : g.freeObjs = none)
    (hold : old.map Chunk.region = g.regions)
    (hnum : 0 < num) :
    Allocated g mem bottom
      ⟨g.size, old, some ⟨bottom + g.size, bottom, bottom + g.size * num⟩, none, num⟩ bottom
      (some (g.size * num))

theorem Ok.allocated (h : Ok given n g) (hn : n < 2 ^ 58) (mem : Memory) (bottom : ℕ)
    (hfresh : ∀ total, g.requested = some total → bottom + total ≤ 2 ^ 63) :
    ∃ g' a, g.allocate mem bottom = (g', some a) ∧ Allocated g mem bottom g' a g.requested := by
  obtain ⟨size, oldChunks, newChunk, freeObjs, num⟩ := g
  obtain rfl : size = n := h.size
  have hnum : 0 < num := h.num
  cases freeObjs with
  | some a => exact ⟨_, a, rfl, .reuse rfl⟩
  | none =>
    cases newChunk with
    | none =>
      obtain rfl : num = initialNumElems := h.first rfl
      have htotal : size * initialNumElems < 2 ^ 64 := by
        rw [initialNumElems]
        omega
      have hreq : (ChunkGroup.mk size oldChunks none none initialNumElems).requested =
          some (size * initialNumElems) := by
        simp only [requested, Chunk.total, Nat.mod_eq_of_lt htotal]
      refine ⟨_, bottom, addChunk_spec hn hnum htotal (hfresh _ hreq), ?_⟩
      rw [hreq]
      exact .grow rfl (by simp [regions]) hnum
    | some c =>
      obtain ⟨-, hcur, -, htop, -, -⟩ := h.chunk c rfl
      obtain ⟨hnum', htotal⟩ := h.next rfl
      have halloc := chunk_allocate hn htop hcur
      by_cases hfull : c.top < c.cur + size
      · rw [if_pos hfull] at halloc
        have hreq : (ChunkGroup.mk size oldChunks (some c) none num).requested =
            some (size * moreElems num) := by
          simp only [requested, halloc, if_true, Chunk.total, Nat.mod_eq_of_lt htotal]
        have hadd := addChunk_spec
          (g := ⟨size, oldChunks ++ [{ c with cur := c.cur + size }], some c, none, moreElems num⟩)
          hn hnum' htotal (hfresh _ hreq)
        refine ⟨_, bottom, (by simp only [allocate, halloc]; exact hadd), ?_⟩
        rw [hreq]
        exact .grow rfl (by simp [regions, Chunk.region]) hnum'
      · rw [if_neg hfull] at halloc
        have hreq : (ChunkGroup.mk size oldChunks (some c) none num).requested = none := by
          simp [requested, halloc]
        refine ⟨_, c.cur, (by simp only [allocate, halloc]; rfl), ?_⟩
        rw [hreq]
        exact .carve rfl rfl (by simpa using hfull)

end ChunkGroup

/-! ### Blocks and chunks -/

/-- The group of a size, or the one that `get_group` makes. -/
def groupAt (chunks : ℕ → Option ChunkGroup) (n : ℕ) : ChunkGroup :=
  (chunks n).getD (ChunkGroup.new n)

/-- Blocks and unused rests of chunks are all apart, and lie in the ranges that were given. -/
structure Layout (chunks : ℕ → Option ChunkGroup) (given blocks : List Block) : Prop where
  groups : ∀ n, Fits n → (groupAt chunks n).Ok given n
  ranges : ∀ r ∈ given, 0 < r.addr ∧ r.addr + r.size ≤ 2 ^ 63
  fits : ∀ b ∈ blocks, Fits b.size
  home : ∀ b ∈ blocks, ∃ g, chunks b.size = some g ∧ ∃ r ∈ g.regions, b.Inside r
  covered : ∀ b ∈ blocks, ∃ r ∈ given, b.Inside r
  apart : blocks.Pairwise Block.Apart
  unused : ∀ n c, Fits n → (groupAt chunks n).newChunk = some c → ∀ b ∈ blocks, b.Apart c.unused
  rests : ∀ n c n' c', Fits n → Fits n' → n ≠ n' → (groupAt chunks n).newChunk = some c →
    (groupAt chunks n').newChunk = some c' → c.unused.Apart c'.unused

theorem groupAt_update (chunks : ℕ → Option ChunkGroup) (n n' : ℕ) (g : ChunkGroup) :
    groupAt (Function.update chunks n (some g)) n' = if n' = n then g else groupAt chunks n' := by
  rw [groupAt]
  split_ifs with hn
  · rw [hn, Function.update_self, Option.getD_some]
  · rw [Function.update_of_ne hn, groupAt]

theorem groupAt_of_some {chunks : ℕ → Option ChunkGroup} {n : ℕ} {g : ChunkGroup}
    (h : chunks n = some g) : groupAt chunks n = g := by
  rw [groupAt, h, Option.getD_some]

theorem pairwise_perm {l l' : List Block} (h : l.Perm l') (hl : l.Pairwise Block.Apart) :
    l'.Pairwise Block.Apart :=
  (h.pairwise_iff fun hab => Block.Apart.symm hab).mp hl

namespace Layout

variable {chunks : ℕ → Option ChunkGroup} {given blocks blocks' : List Block} {b : Block} {n : ℕ}

/-- The order of the blocks does not matter. -/
theorem perm (h : Layout chunks given blocks) (hperm : blocks'.Perm blocks) :
    Layout chunks given blocks' where
  groups := h.groups
  ranges := h.ranges
  fits b hb := h.fits b (hperm.subset hb)
  home b hb := h.home b (hperm.subset hb)
  covered b hb := h.covered b (hperm.subset hb)
  apart := pairwise_perm hperm.symm h.apart
  unused n c hn hc b hb := h.unused n c hn hc b (hperm.subset hb)
  rests := h.rests

/-- A block of the pool has a positive address below `2 ^ 63`. -/
theorem addr (h : Layout chunks given blocks) (hb : b ∈ blocks) :
    0 < b.addr ∧ b.addr + b.size ≤ 2 ^ 63 := by
  obtain ⟨r, hr, hin⟩ := h.covered b hb
  obtain ⟨hpos, hle⟩ := h.ranges r hr
  simp only [Block.Inside] at hin
  omega

/-- The rest of a chunk of another group, or of the group that was changed. -/
private theorem newChunk_update {g : ChunkGroup} {n' : ℕ} {c : Chunk}
    (hg : g.newChunk = (groupAt chunks n).newChunk)
    (hc : (groupAt (Function.update chunks n (some g)) n').newChunk = some c) :
    (groupAt chunks n').newChunk = some c := by
  rw [groupAt_update] at hc
  split_ifs at hc with hn
  · rw [hn, ← hg, hc]
  · exact hc

/-- The list of free objects is no part of the layout. -/
theorem setFree (h : Layout chunks given blocks) (n : ℕ) (p : Option ℕ) :
    Layout (Function.update chunks n (some ((groupAt chunks n).setFree p))) given blocks where
  groups n' hn' := by
    rw [groupAt_update]
    split_ifs with hn
    · have hok := h.groups n' hn'
      rw [hn] at hok ⊢
      exact ⟨hok.size, hok.num, hok.first, hok.chunk⟩
    · exact h.groups n' hn'
  ranges := h.ranges
  fits := h.fits
  home b hb := by
    obtain ⟨g, hg, hr⟩ := h.home b hb
    rcases eq_or_ne b.size n with hn | hne
    · refine ⟨_, by rw [hn]; exact Function.update_self .., ?_⟩
      rw [hn] at hg
      rw [groupAt_of_some hg]
      exact hr
    · exact ⟨g, by rw [Function.update_of_ne hne, hg], hr⟩
  covered := h.covered
  apart := h.apart
  unused n' c hn' hc := h.unused n' c hn'
    (newChunk_update (g := (groupAt chunks n).setFree p) rfl hc)
  rests n₁ c₁ n₂ c₂ hn₁ hn₂ hne h₁ h₂ := h.rests n₁ c₁ n₂ c₂ hn₁ hn₂ hne
    (newChunk_update (g := (groupAt chunks n).setFree p) rfl h₁)
    (newChunk_update (g := (groupAt chunks n).setFree p) rfl h₂)

/-- A block is cut from the front of a range that is apart from all blocks and unused rests, and the
range after it is the rest of the group's last chunk. -/
theorem place (h : Layout chunks given blocks) (hn : Fits n) {given' : List Block}
    (hgiven : given ⊆ given') (hranges : ∀ r ∈ given', 0 < r.addr ∧ r.addr + r.size ≤ 2 ^ 63)
    {g : ChunkGroup} (hok : g.Ok given' n) (hregions : (groupAt chunks n).regions ⊆ g.regions)
    {rest : Block} (hsize : n ≤ rest.size) (hhome : ∃ r ∈ g.regions, rest.Inside r)
    (hcovered : ∃ r ∈ given', rest.Inside r) (hblocks : ∀ b ∈ blocks, b.Apart rest)
    (hothers : ∀ n' c, Fits n' → n' ≠ n → (groupAt chunks n').newChunk = some c →
      c.unused.Apart rest)
    (hrest : ∀ c, g.newChunk = some c → c.unused = ⟨rest.addr + n, rest.size - n⟩) :
    Layout (Function.update chunks n (some g)) given' (⟨rest.addr, n⟩ :: blocks) := by
  -- the block is the beginning of the free piece, and the rest stays free
  have hinside : (Block.mk rest.addr n).Inside rest := ⟨le_rfl, by simpa using hsize⟩
  have htail : (Block.mk (rest.addr + n) (rest.size - n)).Inside rest :=
    ⟨Nat.le_add_right .., by simp only; omega⟩
  have htrans : ∀ {a b c : Block}, a.Inside b → b.Inside c → a.Inside c := fun hab hbc =>
    ⟨hbc.1.trans hab.1, hab.2.trans hbc.2⟩
  have hself : ∀ b : Block, b.Inside b := fun b => ⟨le_rfl, le_rfl⟩
  refine ⟨fun n' hn' => ?_, hranges, ?_, ?_, ?_, ?_, fun n' c hn' hc => ?_,
    fun n₁ c₁ n₂ c₂ hn₁ hn₂ hne h₁ h₂ => ?_⟩
  · rw [groupAt_update]
    split_ifs with hnn
    · exact hnn ▸ hok
    · exact (h.groups n' hn').mono hgiven
  · rintro b (_ | ⟨_, hb⟩)
    · exact hn
    · exact h.fits b hb
  · rintro b (_ | ⟨_, hb⟩)
    · obtain ⟨r, hr, hin⟩ := hhome
      exact ⟨g, Function.update_self .., r, hr, htrans hinside hin⟩
    · obtain ⟨g', hg', r, hr, hin⟩ := h.home b hb
      rcases eq_or_ne b.size n with hbn | hne
      · rw [hbn] at hg' ⊢
        rw [groupAt_of_some hg'] at hregions
        exact ⟨g, Function.update_self .., r, hregions hr, hin⟩
      · exact ⟨g', by rw [Function.update_of_ne hne, hg'], r, hr, hin⟩
  · rintro b (_ | ⟨_, hb⟩)
    · obtain ⟨r, hr, hin⟩ := hcovered
      exact ⟨r, hr, htrans hinside hin⟩
    · obtain ⟨r, hr, hin⟩ := h.covered b hb
      exact ⟨r, hgiven hr, hin⟩
  · refine List.pairwise_cons.mpr ⟨fun b hb => ?_, h.apart⟩
    exact ((hblocks b hb).of_inside (hself b) hinside).symm
  · rw [groupAt_update] at hc
    split_ifs at hc with hnn
    · rw [hrest c hc]
      rintro b (_ | ⟨_, hb⟩)
      · exact .inl le_rfl
      · exact (hblocks b hb).of_inside (hself b) htail
    · rintro b (_ | ⟨_, hb⟩)
      · exact ((hothers n' c hn' hnn hc).of_inside (hself _) hinside).symm
      · exact h.unused n' c hn' hc b hb
  · rw [groupAt_update] at h₁ h₂
    split_ifs at h₁ h₂ with hnn₁ hnn₂ hnn₂
    · exact absurd (hnn₁.trans hnn₂.symm) hne
    · rw [hrest c₁ h₁]
      exact ((hothers n₂ c₂ hn₂ hnn₂ h₂).of_inside (hself _) htail).symm
    · rw [hrest c₂ h₂]
      exact (hothers n₁ c₁ hn₁ hnn₁ h₁).of_inside (hself _) htail
    · exact h.rests n₁ c₁ n₂ c₂ hn₁ hn₂ hne h₁ h₂

end Layout

/-! ### The free lists -/

/-- The list of free objects of a size reads the freed blocks of that size. -/
def FreeList (mem : Memory) (p : Option ℕ) (freed : List Block) (n : ℕ) : Prop :=
  ∃ l, Chain mem.wordNext p l ∧ l.Perm ((freed.filter (·.size = n)).map Block.addr)

namespace FreeList

variable {mem mem' : Memory} {p : Option ℕ} {freed freed' : List Block} {b : Block} {n a : ℕ}

/-- A list depends on the bytes of its blocks only. -/
theorem congr (h : FreeList mem p freed n) (hn : 8 ≤ n)
    (hmem : ∀ b ∈ freed, b.size = n → ∀ x, b.Has x → mem' x = mem x) :
    FreeList mem' p freed n := by
  obtain ⟨l, hchain, hperm⟩ := h
  refine ⟨l, hchain.congr fun a ha => congrArg Memory.toPtr (Memory.loadWord_congr fun x hx => ?_),
    hperm⟩
  obtain ⟨b, hb, rfl⟩ := List.mem_map.mp (hperm.subset ha)
  obtain ⟨hfreed, hsize⟩ := List.mem_filter.mp hb
  have hbn := of_decide_eq_true hsize
  refine hmem b hfreed hbn x ?_
  simp only [Block.Has] at hx ⊢
  omega

/-- A change of blocks of another size. -/
theorem other (h : FreeList mem p freed n) (hperm : freed.Perm (b :: freed')) (hne : b.size ≠ n) :
    FreeList mem p freed' n := by
  obtain ⟨l, hchain, hl⟩ := h
  have hfilter := (hperm.filter (·.size = n)).map Block.addr
  rw [List.filter_cons_of_neg (by simpa using hne)] at hfilter
  exact ⟨l, hchain, hl.trans hfilter⟩

theorem other' (h : FreeList mem p freed n) (hne : b.size ≠ n) :
    FreeList mem p (b :: freed) n := by
  obtain ⟨l, hchain, hl⟩ := h
  exact ⟨l, hchain, by rwa [List.filter_cons_of_neg (by simpa using hne)]⟩

/-- The first object of the list is a freed block, and the rest of the list reads the others. -/
theorem head (h : FreeList mem (some a) freed n) :
    (⟨a, n⟩ : Block) ∈ freed ∧ FreeList mem (mem.wordNext a) (freed.erase ⟨a, n⟩) n := by
  obtain ⟨l, hchain, hl⟩ := h
  obtain ⟨l', rfl⟩ : ∃ l', l = a :: l' := by
    cases l with
    | nil => cases hchain
    | cons a' l' => exact ⟨l', by rw [Option.some.inj hchain.1]⟩
  have hmem : (⟨a, n⟩ : Block) ∈ freed := by
    obtain ⟨b, hb, hab⟩ := List.mem_map.mp (hl.subset List.mem_cons_self)
    obtain ⟨hfreed, hsize⟩ := List.mem_filter.mp hb
    rw [← hab, ← of_decide_eq_true hsize]
    exact hfreed
  have hfilter := ((List.perm_cons_erase hmem).filter (·.size = n)).map Block.addr
  rw [List.filter_cons_of_pos (by simp), List.map_cons] at hfilter
  exact ⟨hmem, l', hchain.2, (hl.trans hfilter).cons_inv⟩

/-- A block in front of the list. -/
theorem cons (h : FreeList mem p freed b.size) (hn : 8 ≤ b.size)
    (haddr : ∀ c ∈ freed, 0 < c.addr ∧ c.addr < 2 ^ 64) (hb : ∀ c ∈ freed, c.Apart b) :
    FreeList (mem.storeWord b.addr (Memory.ofPtr p)) (some b.addr) (b :: freed) b.size := by
  obtain ⟨l, hchain, hl⟩ := h
  have hmem : ∀ a ∈ l, ∃ c ∈ freed, c.size = b.size ∧ c.addr = a := fun a ha => by
    obtain ⟨c, hc, hca⟩ := List.mem_map.mp (hl.subset ha)
    obtain ⟨hfreed, hsize⟩ := List.mem_filter.mp hc
    exact ⟨c, hfreed, of_decide_eq_true hsize, hca⟩
  refine ⟨b.addr :: l, Memory.chain_storeWord hchain (fun a ha => ?_) fun a ha => ?_, ?_⟩
  · have hal : a ∈ l := List.mem_of_head? (hchain.start.symm.trans ha)
    obtain ⟨c, hc, -, rfl⟩ := hmem a hal
    exact haddr c hc
  · obtain ⟨c, hc, hsize, rfl⟩ := hmem a ha
    have hapart := hb c hc
    simp only [Block.Apart] at hapart ⊢
    omega
  · rw [List.filter_cons_of_pos (by simp), List.map_cons]
    exact hl.cons _

end FreeList

/-! ### Operations -/

namespace Client

variable {s s' : Client} {b : Block} {n bottom : ℕ}

/-- The layout of the blocks, live and freed, and the free lists. -/
structure Inv (s : Client) : Prop where
  only : ∀ n g, s.pool.chunks n = some g → Fits n
  layout : Layout s.pool.chunks s.given (s.live ++ s.freed)
  free : ∀ n, Fits n → FreeList s.pool.mem (groupAt s.pool.chunks n).freeObjs s.freed n

theorem Inv.only_update (h : Inv s) (hn : Fits n) (g : ChunkGroup) (n' : ℕ) (g' : ChunkGroup)
    (hg' : Function.update s.pool.chunks n (some g) n' = some g') : Fits n' := by
  rcases eq_or_ne n' n with rfl | hne
  · exact hn
  · rw [Function.update_of_ne hne] at hg'
    exact h.only n' g' hg'

/-- A block is taken from the list of free objects. -/
theorem Inv.reuse (h : Inv s) (hn : Fits n) {a : ℕ}
    (ha : (groupAt s.pool.chunks n).freeObjs = some a) :
    Inv {
      pool := s.pool.setGroup n ((groupAt s.pool.chunks n).setFree (s.pool.mem.wordNext a))
      live := ⟨a, n⟩ :: s.live
      freed := s.freed.erase ⟨a, n⟩
      given := s.given } := by
  have hlist := h.free n hn
  rw [ha] at hlist
  obtain ⟨hmem, hrest⟩ := hlist.head
  have hblocks : (⟨a, n⟩ :: s.live ++ s.freed.erase ⟨a, n⟩).Perm (s.live ++ s.freed) := by
    rw [List.cons_append]
    exact List.perm_middle.symm.trans ((List.perm_cons_erase hmem).symm.append_left s.live)
  refine ⟨h.only_update hn _, (h.layout.setFree n _).perm hblocks, fun n' hn' => ?_⟩
  rw [Pool.setGroup, groupAt_update]
  split_ifs with hnn
  · rw [hnn, ChunkGroup.setFree_freeObjs]
    exact hrest
  · exact (h.free n' hn').other (List.perm_cons_erase hmem) (Ne.symm hnn)

/-- A block is cut from a chunk. -/
theorem Inv.place (h : Inv s) (hn : Fits n) {g : ChunkGroup} {rest : Block} {given : List Block}
    (hfree : g.freeObjs = (groupAt s.pool.chunks n).freeObjs)
    (hblocks : ∀ b ∈ s.live ++ s.freed, b.Apart rest) (hsize : n ≤ rest.size)
    (hlayout : Layout (Function.update s.pool.chunks n (some g)) given
      (⟨rest.addr, n⟩ :: (s.live ++ s.freed))) :
    Inv {
      pool := s.pool.setGroup n g
      live := ⟨rest.addr, n⟩ :: s.live
      freed := s.freed.erase ⟨rest.addr, n⟩
      given := given } := by
  have hnot : (⟨rest.addr, n⟩ : Block) ∉ s.freed := fun hmem => by
    have hapart := hblocks _ (List.mem_append_right _ hmem)
    have hpos := hn.1
    simp only [Block.Apart] at hapart
    omega
  rw [List.erase_of_not_mem hnot]
  refine ⟨h.only_update hn _, hlayout, fun n' hn' => ?_⟩
  rw [Pool.setGroup, groupAt_update]
  split_ifs with hnn
  · rw [hfree, hnn]
    exact h.free n hn
  · exact h.free n' hn'

/-- A request for a block that can hold a pointer. -/
theorem Inv.allocate (h : Inv s) (hn : Fits n)
    (hfresh : ∀ total, s.requested n = some total → s.Fresh ⟨bottom, total⟩) :
    ∃ s', s.run (.allocate n bottom) = .ok s' ∧ Inv s' ∧ s'.pool.mem = s.pool.mem := by
  have hok := h.layout.groups n hn
  have hpos : 0 < n := Nat.lt_of_lt_of_le (by decide) hn.1
  obtain ⟨g, a, hrun, hcases⟩ := hok.allocated hn.2 s.pool.mem bottom
    fun total htotal => (hfresh total htotal).2.1
  have hrun' : s.run (.allocate n bottom) = .ok {
      pool := s.pool.setGroup n g
      live := ⟨a, n⟩ :: s.live
      freed := s.freed.erase ⟨a, n⟩
      given := ((s.requested n).map (Block.mk bottom)).toList ++ s.given } := by
    have halloc : s.pool.allocate n bottom = .ok (s.pool.setGroup n g, some a) := by
      rw [groupAt] at hrun
      simp only [Pool.allocate, Pool.getGroup, assert_pos hpos, ok_bind, pure_eq_ok, hrun]
    rw [run, halloc]
    rfl
  -- the group finds memory in one of three ways
  refine ⟨_, hrun', ?_, rfl⟩
  have hreq : s.requested n = (groupAt s.pool.chunks n).requested := rfl
  rw [hreq] at hfresh ⊢
  generalize (groupAt s.pool.chunks n).requested = req at hcases hfresh
  cases hcases with
  -- the free list has an object
  | reuse ha => exact h.reuse hn ha
  -- the current chunk has room
  | carve hfree hc hroom =>
    rename_i c
    obtain ⟨hbottom, hcur, hlow, htop, heq, hgiven⟩ := hok.chunk c hc
    have hgsize := hok.size
    rw [hgsize] at hroom ⊢
    have hinside : c.unused.Inside c.region := by
      simp only [Block.Inside, Chunk.unused, Chunk.region]
      omega
    have hblocks := h.layout.unused n c hn hc
    have hsize : n ≤ c.unused.size := by
      simp only [Chunk.unused]
      omega
    have hok' : ChunkGroup.Ok s.given n ⟨n, (groupAt s.pool.chunks n).oldChunks,
        some ⟨c.cur + n, c.bottom, c.top⟩, (groupAt s.pool.chunks n).freeObjs,
        (groupAt s.pool.chunks n).numElemsPerChunk⟩ := by
      refine ⟨rfl, hok.num, by simp, fun c' hc' => ?_⟩
      obtain rfl := Option.some.inj hc'
      exact ⟨by simp only; omega, hroom, hlow, htop, heq, hgiven⟩
    refine h.place hn (by rfl) hblocks hsize (h.layout.place hn
      (List.Subset.refl _) h.layout.ranges hok' ?_ hsize ?_
      ⟨_, hgiven, hinside⟩ hblocks
      (fun n' c' hn' hne hc' => h.layout.rests n' c' n c hn' hn hne hc' hc) fun c' hc' => ?_)
    · rw [ChunkGroup.regions, ChunkGroup.regions, hc]
      simp [Chunk.region]
    · refine ⟨c.region, ?_, hinside⟩
      simp [ChunkGroup.regions, Chunk.region]
    · obtain rfl := Option.some.inj hc'
      simp only [Chunk.unused, Block.mk.injEq, true_and]
      omega
  -- a new chunk is asked for, which the system has not given out before
  | grow hfree hold hnum =>
    rename_i old num
    have hgsize := hok.size
    rw [hgsize] at hfresh ⊢
    obtain ⟨hlow, htop, hnew⟩ := hfresh _ rfl
    simp only at hlow htop hnew
    have hle : n ≤ n * num := Nat.le_mul_of_pos_right n hnum
    have hregion : (Chunk.mk (bottom + n) bottom (bottom + n * num)).region =
        ⟨bottom, n * num⟩ := by
      simp only [Chunk.region, Block.mk.injEq, true_and]
      omega
    have hself : (Block.mk bottom (n * num)).Inside ⟨bottom, n * num⟩ := ⟨le_rfl, le_rfl⟩
    have hapart : ∀ b : Block, (∃ r ∈ s.given, b.Inside r) → b.Apart ⟨bottom, n * num⟩ := by
      rintro b ⟨r, hr, hin⟩
      exact ((hnew r hr).of_inside hself hin).symm
    have hblocks : ∀ b ∈ s.live ++ s.freed, b.Apart ⟨bottom, n * num⟩ := fun b hb =>
      hapart b (h.layout.covered b hb)
    have hok' : ChunkGroup.Ok (⟨bottom, n * num⟩ :: s.given) n
        ⟨n, old, some ⟨bottom + n, bottom, bottom + n * num⟩, none, num⟩ := by
      refine ⟨rfl, hnum, by simp, fun c' hc' => ?_⟩
      obtain rfl := Option.some.inj hc'
      refine ⟨Nat.le_add_right .., by simp only; omega, hlow, htop, rfl, ?_⟩
      rw [hregion]
      exact List.mem_cons_self
    refine h.place hn hfree.symm hblocks hle (h.layout.place hn
      (List.subset_cons_self _ _) ?_ hok' ?_ hle ?_
      ⟨_, List.mem_cons_self, hself⟩ hblocks (fun n' c' hn' hne hc' => ?_) fun c' hc' => ?_)
    · rintro r (_ | ⟨_, hr⟩)
      · exact ⟨hlow, htop⟩
      · exact h.layout.ranges r hr
    · rw [← hold, ChunkGroup.regions, List.map_append]
      exact List.subset_append_left ..
    · refine ⟨_, ?_, hself⟩
      rw [ChunkGroup.regions, List.map_append, ← hregion]
      exact List.mem_append_right _ List.mem_cons_self
    · obtain ⟨-, hcur, -, -, -, hgiven⟩ := (h.layout.groups n' hn').chunk c' hc'
      refine hapart _ ⟨_, hgiven, ?_⟩
      have hbottom := ((h.layout.groups n' hn').chunk c' hc').1
      simp only [Block.Inside, Chunk.unused, Chunk.region]
      omega
    · obtain rfl := Option.some.inj hc'
      simp only [Chunk.unused, Block.mk.injEq, true_and]
      omega

theorem run_deallocate (hpos : 0 < b.size) : s.run (.deallocate b) = .ok { s with
    pool := { s.pool.setGroup b.size ((groupAt s.pool.chunks b.size).setFree (some b.addr)) with
      mem := s.pool.mem.storeWord b.addr
        (Memory.ofPtr (groupAt s.pool.chunks b.size).freeObjs) }
    live := s.live.erase b
    freed := b :: s.freed } := by
  simp only [run, Pool.deallocate, Pool.getGroup, assert_pos hpos, ok_bind, pure_eq_ok]
  rfl

/-- A block is given back: the write of its link stays inside the block. -/
theorem Inv.deallocate (h : Inv s) (hb : b ∈ s.live) :
    ∃ s', s.run (.deallocate b) = .ok s' ∧ Inv s' ∧ Keeps s (.deallocate b) s' := by
  have hfits := h.layout.fits b (List.mem_append_left _ hb)
  have hpos : 0 < b.size := Nat.lt_of_lt_of_le (by decide) hfits.1
  have hinside : (Block.mk b.addr 8).Inside b := ⟨le_rfl, Nat.add_le_add_left hfits.1 _⟩
  have hself : ∀ c : Block, c.Inside c := fun c => ⟨le_rfl, le_rfl⟩
  obtain ⟨hlive, -, hcross⟩ := List.pairwise_append.mp h.layout.apart
  have hothers := (List.pairwise_cons.mp (pairwise_perm (List.perm_cons_erase hb) hlive)).1
  -- a byte of a block apart from this one is not written
  have hkeep : ∀ c : Block, b.Apart c → ∀ x, c.Has x → ∀ v,
      s.pool.mem.storeWord b.addr v x = s.pool.mem x := fun c hc x hx v =>
    Memory.storeWord_of_not_has ((hc.of_inside hinside (hself c)).symm.not_has hx)
  have hblocks : (s.live.erase b ++ b :: s.freed).Perm (s.live ++ s.freed) :=
    List.perm_middle.trans ((List.perm_cons_erase hb).symm.append_right s.freed)
  refine ⟨_, run_deallocate hpos, ⟨h.only_update hfits _, (h.layout.setFree b.size _).perm hblocks,
    fun n hn => ?_⟩, fun _ c _ hc x hx => hkeep c (hothers c hc) x hx _⟩
  rw [Pool.setGroup, groupAt_update]
  split_ifs with hnn
  · rw [hnn, ChunkGroup.setFree_freeObjs]
    refine (h.free b.size hfits).cons hfits.1 (fun c hc => ?_) fun c hc => (hcross b hb c hc).symm
    obtain ⟨hlow, hhigh⟩ := h.layout.addr (List.mem_append_right _ hc)
    have hsize := (h.layout.fits c (List.mem_append_right _ hc)).1
    omega
  · exact ((h.free n hn).congr hn.1 fun c hc _ x hx => hkeep c (hcross b hb c hc) x hx _).other'
      (Ne.symm hnn)

/-- A client writes into a block that it has. -/
theorem Inv.write (h : Inv s) (hb : b ∈ s.live) {x : ℕ} (hx : b.Has x) (v : UInt8) :
    Inv { s with pool.mem := Function.update s.pool.mem x v } := by
  obtain ⟨-, -, hcross⟩ := List.pairwise_append.mp h.layout.apart
  refine ⟨h.only, h.layout, fun n hn => (h.free n hn).congr hn.1 fun c hc _ y hy => ?_⟩
  have hne : y ≠ x := fun he => (hcross b hb c hc).not_has hx (he ▸ hy)
  exact Function.update_of_ne hne ..

/-- What clients do keeps the invariant, and the bytes of the live blocks. -/
theorem Inv.step (h : Inv s) {sizes : Set ℕ} (hsizes : ∀ n ∈ sizes, Fits n) {op : Op}
    (hop : Legal sizes s op) : ∃ s', s.run op = .ok s' ∧ Inv s' ∧ Keeps s op s' := by
  cases op with
  | allocate size bottom =>
    obtain ⟨s', hrun, hinv, hmem⟩ := h.allocate (hsizes size hop.1) hop.2
    exact ⟨s', hrun, hinv, fun _ _ _ _ x _ => by rw [hmem]⟩
  | deallocate b => exact h.deallocate hop
  | write x v =>
    obtain ⟨b, hb, hx⟩ := hop
    exact ⟨_, rfl, h.write hb hx v, fun hnot => absurd rfl (hnot x v)⟩

theorem Inv.sound (h : Inv s) : Sound s where
  inside b hb := h.layout.home b (List.mem_append_left _ hb)
  apart := (List.pairwise_append.mp h.layout.apart).1
  free n := by
    by_cases hn : Fits n
    · have hfree := h.free n hn
      cases hg : s.pool.chunks n with
      | none =>
        rw [groupAt, hg] at hfree
        exact hfree
      | some g =>
        rw [groupAt_of_some hg] at hfree
        exact hfree
    · have hnone : s.pool.chunks n = none := by
        rw [Option.eq_none_iff_forall_ne_some]
        exact fun g hg => hn (h.only n g hg)
      have hnil : s.freed.filter (·.size = n) = [] := by
        rw [List.filter_eq_nil_iff]
        intro b hb hbn
        exact hn (of_decide_eq_true hbn ▸ h.layout.fits b (List.mem_append_right _ hb))
      rw [hnone, hnil]
      exact ⟨[], rfl, .refl _⟩

theorem inv_init {sizes : Set ℕ} (h : (system sizes).init s) : Inv s := by
  obtain ⟨hchunks, hlive, hfreed, hgiven⟩ := h
  have hgroup : ∀ n, groupAt s.pool.chunks n = ChunkGroup.new n := fun n => by
    rw [groupAt, hchunks]
    rfl
  refine ⟨fun n g hg => ?_, ?_, fun n _ => ?_⟩
  · rw [hchunks] at hg
    cases hg
  · rw [hlive, hfreed, hgiven]
    refine ⟨fun n _ => by rw [hgroup]; exact .new [] n, nofun, nofun, nofun, nofun, .nil,
      fun _ _ _ _ => nofun, fun n c n' c' _ _ _ hc => ?_⟩
    rw [hgroup] at hc
    cases hc
  · rw [hgroup, hfreed]
    exact ⟨[], rfl, .refl _⟩

/-- With blocks that can hold a pointer every run is safe. -/
theorem safe_of_fits {sizes : Set ℕ} (hsizes : ∀ n ∈ sizes, Fits n)
    (h : (system sizes).Reachable s) : Safe sizes s := by
  have hinv : Inv s := h.invariant (I := Inv) (fun s hs => inv_init hs) fun s s' hs hstep => by
    obtain ⟨op, hop, hrun⟩ := hstep
    obtain ⟨s'', hrun', hinv, -⟩ := hs.step hsizes hop
    exact Except.ok.inj (hrun'.symm.trans hrun) ▸ hinv
  refine ⟨hinv.sound, fun op hop => ?_⟩
  obtain ⟨s', hrun, -, hkeeps⟩ := hinv.step hsizes hop
  exact ⟨s', hrun, hkeeps⟩

/-! ### Small blocks -/

/-- The pool without chunks. -/
def start : Client := ⟨⟨fun _ => 0, fun _ => none⟩, [], [], []⟩

/-- A client that has the first block of a chunk. -/
def oneBlock (n : ℕ) : Client where
  pool := {
    mem := fun _ => 0
    chunks := Function.update (fun _ => none) n
      (some ⟨n, [], some ⟨4096 + n, 4096, 4096 + n * 64⟩, none, 64⟩) }
  live := [⟨4096, n⟩]
  freed := []
  given := [⟨4096, n * 64⟩]

/-- A client that has the first two blocks, and has set the first byte of the second one. -/
def twoBlocks (n : ℕ) : Client where
  pool := {
    mem := Function.update (fun _ => 0) (4096 + n) 1
    chunks := Function.update (oneBlock n).pool.chunks n
      (some ⟨n, [], some ⟨4096 + n + n, 4096, 4096 + n * 64⟩, none, 64⟩) }
  live := [⟨4096 + n, n⟩, ⟨4096, n⟩]
  freed := []
  given := [⟨4096, n * 64⟩]

theorem twoBlocks_reachable {sizes : Set ℕ} (hmem : n ∈ sizes) (hpos : 0 < n) (hn : n < 8) :
    (system sizes).Reachable (twoBlocks n) := by
  have hreq : start.requested n = some (n * 64) := by interval_cases n <;> rfl
  have hone : start.run (.allocate n 4096) = .ok (oneBlock n) := by interval_cases n <;> rfl
  have hreq' : (oneBlock n).requested n = none := by interval_cases n <;> rfl
  have htwo : (oneBlock n).run (.allocate n 0) =
      .ok { twoBlocks n with pool.mem := fun _ => 0 } := by interval_cases n <;> rfl
  have hstart : (system sizes).Reachable start := .init ⟨fun _ => rfl, rfl, rfl, rfl⟩
  have hlegal : Legal sizes start (.allocate n 4096) := by
    refine ⟨hmem, fun total htotal => ?_⟩
    obtain rfl := Option.some.inj (hreq.symm.trans htotal)
    exact ⟨by simp only; omega, by simp only; omega, nofun⟩
  have hlegal' : Legal sizes (oneBlock n) (.allocate n 0) := by
    refine ⟨hmem, fun total htotal => ?_⟩
    rw [hreq'] at htotal
    cases htotal
  refine ((hstart.step ⟨_, hlegal, hone⟩).step ⟨_, hlegal', htwo⟩).step
    ⟨.write (4096 + n) 1, ⟨_, List.mem_cons_self, ?_⟩, rfl⟩
  exact ⟨le_rfl, Nat.lt_add_of_pos_right hpos⟩

/-- Giving the first block back writes over the second one. -/
theorem twoBlocks_damaged (hpos : 0 < n) (hn : n < 8) :
    ∃ s', (twoBlocks n).run (.deallocate ⟨4096, n⟩) = .ok s' ∧ ⟨4096 + n, n⟩ ∈ s'.live ∧
      s'.pool.mem (4096 + n) = 0 := by
  have hbytes : ∀ m : Memory, m.storeWord 4096 0 (4096 + n) = 0 := fun m => by
    interval_cases n <;> rfl
  have hgroup : (groupAt (twoBlocks n).pool.chunks n).freeObjs = none := by
    rw [twoBlocks, groupAt_update, if_pos rfl]
  have hlive : (⟨4096 + n, n⟩ : Block) ∈ (twoBlocks n).live.erase ⟨4096, n⟩ := by
    refine (List.mem_erase_of_ne fun he => ?_).mpr List.mem_cons_self
    have haddr := congrArg Block.addr he
    simp only at haddr
    omega
  refine ⟨_, run_deallocate hpos, hlive, ?_⟩
  simp only [hgroup]
  exact hbytes _

/-- A size that cannot hold a pointer leads to a state that is not safe. -/
theorem not_safe (sizes : Set ℕ) (hpos : 0 < n) (hn : n < 8) :
    ¬Safe sizes (twoBlocks n) := by
  rintro ⟨-, hsafe⟩
  obtain ⟨s', hrun, hlive, hzero⟩ := twoBlocks_damaged hpos hn
  obtain ⟨s'', hrun', hkeeps⟩ := hsafe (.deallocate ⟨4096, n⟩)
    (List.mem_cons_of_mem _ List.mem_cons_self)
  obtain rfl := Except.ok.inj (hrun.symm.trans hrun')
  have hbyte := hkeeps nofun _ List.mem_cons_self hlive (4096 + n)
    ⟨le_rfl, Nat.lt_add_of_pos_right hpos⟩
  rw [hzero] at hbyte
  have hset : (twoBlocks n).pool.mem (4096 + n) = 1 := by
    simp [twoBlocks]
  rw [hset] at hbyte
  exact absurd hbyte (by decide)

/-- For clients that ask for blocks of certain sizes, every run is safe exactly when a block of
every such size can hold a pointer. -/
theorem pool_safe_iff (sizes : Set ℕ) (hsizes : ∀ n ∈ sizes, 1 ≤ n ∧ n < 2 ^ 58) :
    (∀ s, (system sizes).Reachable s → Safe sizes s) ↔ ∀ n ∈ sizes, 8 ≤ n := by
  constructor
  · intro hsafe n hmem
    by_contra hlt
    have hn : n < 8 := by omega
    have hpos := (hsizes n hmem).1
    exact not_safe sizes hpos hn (hsafe _ (twoBlocks_reachable hmem hpos hn))
  · intro hle s hs
    exact safe_of_fits (fun n hn => ⟨hle n hn, (hsizes n hn).2⟩) hs

/-- Pairs of ints and pointers. -/
theorem pool_safe_iff_pairs :
    (∀ s, (system {8, 16}).Reachable s → Safe {8, 16} s) ↔ ∀ n ∈ ({8, 16} : Set ℕ), 8 ≤ n :=
  pool_safe_iff {8, 16} (by simp)

/-- Vectors of one int: the second block is damaged when the first one is given back. -/
theorem not_pool_safe : ∃ s s', (system {4}).Reachable s ∧ (⟨4096, 4⟩ : Block) ∈ s.live ∧
    (⟨4100, 4⟩ : Block) ∈ s.live ∧ s.run (.deallocate ⟨4096, 4⟩) = .ok s' ∧
    (⟨4100, 4⟩ : Block) ∈ s'.live ∧ s.pool.mem 4100 = 1 ∧ s'.pool.mem 4100 = 0 := by
  obtain ⟨s', hrun, hlive, hzero⟩ := twoBlocks_damaged (n := 4) (by decide) (by decide)
  exact ⟨_, s', twoBlocks_reachable rfl (by decide) (by decide),
    List.mem_cons_of_mem _ List.mem_cons_self, List.mem_cons_self, hrun, hlive, rfl, hzero⟩

end Client

end Meld.Mem
