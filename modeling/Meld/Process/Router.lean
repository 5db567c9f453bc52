import Meld.Lib.Blocks
import Meld.Lib.Exec

/-!
# The partition of the nodes

The nodes are divided among the machines, and those of a machine among its threads. A machine and a
thread have the bounds of their nodes; the owner of a node is found from its id by a division. Node
ids have 32 bits, and the ids of threads 16 bits: `partition_agrees` says that the bounds and the
lookups agree for all numbers that these can hold.
-/

namespace Meld.Process

open Lib

/-- `remote`, with the values that `cache_values` keeps. -/
structure Remote where
  rank : ℕ
  numThreads : ℕ
  lastOne : Bool
  totalNodes : ℕ
  nodesBase : ℕ
  nodesPerProc : ℕ
  deriving DecidableEq, Repr

/-- A `node_id`. -/
def toNodeId (n : ℕ) : ℕ := n % 2 ^ 32

/-- A `process_id`. -/
def toProcessId (n : ℕ) : ℕ := n % 2 ^ 16

namespace Remote

/-- `cache_values`, of a remote with at least one thread; the build with `USE_SIM` does not assert
that it has nodes. -/
def cacheValues (useSim : Bool) (worldSize nodesPerRemote nodesTotal rank numThreads : ℕ) :
    Exec Remote := do
  assert (numThreads ≠ 0)
  let lastOne := decide (rank + 1 = worldSize)
  let totalNodes := if lastOne then nodesPerRemote + (nodesTotal - nodesPerRemote * worldSize)
    else nodesPerRemote
  assert (useSim = true ∨ 0 < totalNodes)
  return {
    rank := rank
    numThreads := numThreads
    lastOne := lastOne
    totalNodes := totalNodes
    nodesBase := rank * nodesPerRemote
    nodesPerProc := totalNodes / numThreads }

variable (r : Remote)

/-- `get_nodes_base`. -/
def getNodesBase : ℕ := toNodeId r.nodesBase

/-- `find_proc_owner`; the difference is one of 32-bit numbers. -/
def findProcOwner (id : ℕ) : Exec ℕ := do
  assert (r.nodesPerProc ≠ 0)
  let remoteNodeId := toNodeId (id + 2 ^ 32 - r.getNodesBase)
  return toProcessId (min (remoteNodeId / r.nodesPerProc) (r.numThreads - 1))

/-- `find_first_node`. -/
def findFirstNode (id : ℕ) : ℕ := toNodeId (r.getNodesBase + toProcessId id * r.nodesPerProc)

/-- `find_last_node`. -/
def findLastNode (id : ℕ) : ℕ :=
  if r.numThreads - 1 = toProcessId id then toNodeId (r.getNodesBase + r.totalNodes)
  else r.findFirstNode (toProcessId id + 1)

end Remote

/-- `router`. -/
structure Router where
  remoteList : List Remote
  nodesPerRemote : ℕ
  /-- the rank of `remote::self` -/
  self : ℕ
  deriving DecidableEq, Repr

namespace Router

/-- `set_nodes_total`, for machines with these numbers of threads, in a build with or without
`USE_SIM`. -/
def setNodesTotal (useSim : Bool) (total self : ℕ) (threads : List ℕ) : Exec Router := do
  let worldSize := threads.length
  let nodesPerRemote := total / worldSize
  if useSim = false ∧ nodesPerRemote = 0 then throw .thrown
  let remoteList ← threads.zipIdx.mapM fun (numThreads, rank) =>
    Remote.cacheValues useSim worldSize nodesPerRemote total rank numThreads
  return ⟨remoteList, nodesPerRemote, self⟩

variable (router : Router)

/-- `world_size`. -/
def worldSize : ℕ := router.remoteList.length

/-- `find_remote`; a `remote_id` is an `int`. -/
def findRemote (id : ℕ) : Exec Remote := do
  if router.worldSize ≤ 1 then
    deref router.remoteList[router.self]?
  else
    assert (0 < router.nodesPerRemote)
    assert (1 < router.worldSize)
    let rem := wrap32 (min (id / router.nodesPerRemote) (router.worldSize - 1) : ℕ)
    deref router.remoteList[rem.toNat]?

/-- The interval of the thread contains the node. -/
def Owns (r : Remote) (p id : ℕ) : Prop :=
  r ∈ router.remoteList ∧ p < r.numThreads ∧ r.findFirstNode p ≤ id ∧ id < r.findLastNode p

instance (r : Remote) (p id : ℕ) : Decidable (router.Owns r p id) :=
  inferInstanceAs (Decidable (_ ∧ _ ∧ _ ∧ _))

/-- The intervals of the threads partition the nodes, and the lookups find the owner. -/
structure Agrees (total : ℕ) : Prop where
  lt_total : ∀ r p id, router.Owns r p id → id < total
  existsUnique : ∀ id < total, ∃! o : Remote × ℕ, router.Owns o.1 o.2 id
  lookup : ∀ r p id, router.Owns r p id →
    router.findRemote id = .ok r ∧ r.findProcOwner id = .ok p

end Router

/-! ### The parts of the partition -/

/-- The division of the nodes among the machines. -/
abbrev machines (total worldSize : ℕ) (h : 0 < total / worldSize) : Blocks :=
  .ofDiv total worldSize h

variable {total self worldSize : ℕ} {threads : List ℕ} {router : Router} {r : Remote} {id p k : ℕ}
  {useSim : Bool} {rank numThreads nodesPerRemote : ℕ}

/-- The values of a machine in the division of the nodes. -/
structure Remote.Cached (total worldSize : ℕ) (h : 0 < total / worldSize) (r : Remote) : Prop where
  rank_lt : r.rank < worldSize
  numThreads_pos : 0 < r.numThreads
  nodesBase : r.nodesBase = (machines total worldSize h).first r.rank
  base_add_total : r.nodesBase + r.totalNodes = (machines total worldSize h).last r.rank
  nodesPerProc : r.nodesPerProc = r.totalNodes / r.numThreads

/-- The values that `cache_values` keeps. -/
theorem Remote.cacheValues_eq_ok
    (hrun : Remote.cacheValues useSim worldSize nodesPerRemote total rank numThreads = .ok r) :
    0 < numThreads ∧ r.rank = rank ∧ r.numThreads = numThreads ∧
      r.nodesBase = rank * nodesPerRemote ∧ r.nodesPerProc = r.totalNodes / numThreads ∧
      r.totalNodes = if rank + 1 = worldSize then
        nodesPerRemote + (total - nodesPerRemote * worldSize) else nodesPerRemote := by
  obtain ⟨⟨⟩, hthreads, hrun⟩ := bind_eq_ok.mp hrun
  obtain ⟨⟨⟩, -, hrun⟩ := bind_eq_ok.mp hrun
  rw [assert_eq_ok] at hthreads
  cases hrun
  refine ⟨Nat.pos_of_ne_zero hthreads, rfl, rfl, rfl, rfl, ?_⟩
  simp only [decide_eq_true_eq]

theorem Remote.cached_of_cacheValues {h : 0 < total / worldSize} (hrank : rank < worldSize)
    (hrun : Remote.cacheValues useSim worldSize (total / worldSize) total rank numThreads = .ok r) :
    r.Cached total worldSize h ∧ r.rank = rank ∧ r.numThreads = numThreads := by
  obtain ⟨hthreads, rfl, rfl, hbase, hper, htotal⟩ := Remote.cacheValues_eq_ok hrun
  refine ⟨⟨hrank, hthreads, hbase, ?_, hper⟩, rfl, rfl⟩
  have hle : total / worldSize * worldSize ≤ total := Nat.div_mul_le_self total worldSize
  rw [hbase, htotal]
  simp only [machines, Blocks.last, Blocks.ofDiv, Nat.succ_mul]
  split_ifs with hlast
  · rw [← hlast, Nat.mul_succ, Nat.mul_comm (total / (r.rank + 1))] at hle
    rw [← hlast, Nat.mul_succ, Nat.mul_comm (total / (r.rank + 1))]
    omega
  · rfl

/-- The machines in the list of a router, each with what `cache_values` has kept for it. -/
theorem remoteList_of_setNodesTotal
    (hrun : Router.setNodesTotal useSim total self threads = .ok router) :
    router.remoteList.length = threads.length ∧ router.nodesPerRemote = total / threads.length ∧
      router.self = self ∧ ∀ (k : ℕ) (r : Remote), router.remoteList[k]? = some r →
        ∃ numThreads, threads[k]? = some numThreads ∧
          Remote.cacheValues useSim threads.length (total / threads.length) total k numThreads =
            .ok r := by
  rw [Router.setNodesTotal] at hrun
  split_ifs at hrun
  · cases hrun
  · obtain ⟨remoteList, hmap, hrun⟩ := bind_eq_ok.mp hrun
    cases hrun
    obtain ⟨hlen, hall⟩ := List.forall₂_iff_get.mp (forall₂_of_mapM hmap)
    rw [List.length_zipIdx] at hlen
    refine ⟨hlen.symm, rfl, rfl, fun k r hr => ?_⟩
    obtain ⟨hk, rfl⟩ := List.getElem?_eq_some_iff.mp hr
    have hcache := hall k (by rw [List.length_zipIdx, hlen]; exact hk) hk
    simp only [List.get_eq_getElem, List.getElem_zipIdx, Nat.zero_add] at hcache
    exact ⟨_, List.getElem?_eq_getElem (hlen ▸ hk), hcache⟩

/-- Where every thread has nodes, every machine has them, in any build. -/
theorem nodesPerRemote_pos (hrun : Router.setNodesTotal useSim total self threads = .ok router)
    (hthreads : 0 < threads.length) (hproc : ∀ r ∈ router.remoteList, 0 < r.nodesPerProc) :
    0 < total / threads.length := by
  obtain ⟨hlen, -, -, hlist⟩ := remoteList_of_setNodesTotal hrun
  obtain ⟨r, hr⟩ : ∃ r, router.remoteList[0]? = some r :=
    ⟨_, List.getElem?_eq_getElem (hlen ▸ hthreads)⟩
  obtain ⟨numThreads, -, hcache⟩ := hlist 0 r hr
  obtain ⟨-, -, -, -, hper, htotal⟩ := Remote.cacheValues_eq_ok hcache
  have hpos : 0 < r.totalNodes := by
    have hone := hproc r (List.mem_of_getElem? hr)
    rw [hper] at hone
    exact Nat.pos_of_ne_zero fun hzero => by simp [hzero] at hone
  rw [htotal] at hpos
  split_ifs at hpos with hlast
  · rw [← hlast, Nat.zero_add, Nat.div_one] at hpos ⊢
    omega
  · exact hpos

namespace Remote.Cached

variable {h : 0 < total / worldSize}

theorem end_le (hc : r.Cached total worldSize h) : r.nodesBase + r.totalNodes ≤ total := by
  rw [hc.base_add_total]
  exact Blocks.last_le hc.rank_lt

/-- The division of the nodes of a machine among its threads. -/
def ofThreads (hc : r.Cached total worldSize h) (hproc : 0 < r.nodesPerProc) : Blocks :=
  .ofDiv r.totalNodes r.numThreads (hc.nodesPerProc ▸ hproc)

theorem ofThreads_size (hc : r.Cached total worldSize h) (hproc : 0 < r.nodesPerProc) :
    (hc.ofThreads hproc).size = r.nodesPerProc := hc.nodesPerProc.symm

theorem getNodesBase_eq (hc : r.Cached total worldSize h) (htotal : total < 2 ^ 32) :
    r.getNodesBase = r.nodesBase := by
  have hend := hc.end_le
  exact Nat.mod_eq_of_lt (by omega)

theorem findFirstNode_eq (hc : r.Cached total worldSize h) (hproc : 0 < r.nodesPerProc)
    (htotal : total < 2 ^ 32) (hthreads : r.numThreads ≤ 2 ^ 16) (hp : p < r.numThreads) :
    r.findFirstNode p = r.nodesBase + (hc.ofThreads hproc).first p := by
  have hend := hc.end_le
  have hfirst : p * r.nodesPerProc ≤ r.totalNodes := by
    have hle := (hc.ofThreads hproc).le_total
    rw [hc.ofThreads_size hproc] at hle
    exact (Nat.mul_le_mul_right _ hp.le).trans hle
  rw [findFirstNode, hc.getNodesBase_eq htotal, toProcessId, Nat.mod_eq_of_lt (by omega), toNodeId,
    Nat.mod_eq_of_lt (by omega), Blocks.first, hc.ofThreads_size hproc]

theorem findLastNode_eq (hc : r.Cached total worldSize h) (hproc : 0 < r.nodesPerProc)
    (htotal : total < 2 ^ 32) (hthreads : r.numThreads ≤ 2 ^ 16) (hp : p < r.numThreads) :
    r.findLastNode p = r.nodesBase + (hc.ofThreads hproc).last p := by
  have hend := hc.end_le
  have hiff : r.numThreads - 1 = p ↔ p + 1 = r.numThreads := by omega
  have hid : toProcessId p = p := Nat.mod_eq_of_lt (by omega)
  rw [findLastNode, hid, Blocks.last]
  simp only [hiff]
  change _ = r.nodesBase + if p + 1 = r.numThreads then _ else _
  split_ifs with hlast
  · rw [hc.getNodesBase_eq htotal]
    exact Nat.mod_eq_of_lt (by omega)
  · rw [hc.findFirstNode_eq hproc htotal hthreads (by omega)]
    rfl

theorem findProcOwner_eq (hc : r.Cached total worldSize h) (hproc : 0 < r.nodesPerProc)
    (htotal : total < 2 ^ 32) (hthreads : r.numThreads ≤ 2 ^ 16) (hbase : r.nodesBase ≤ id)
    (hid : id < total) :
    r.findProcOwner id = .ok ((hc.ofThreads hproc).owner (id - r.nodesBase)) := by
  have hpos := hc.numThreads_pos
  have hmod : (id + 2 ^ 32 - r.nodesBase) % 2 ^ 32 = id - r.nodesBase := by omega
  have hmin : min ((id - r.nodesBase) / r.nodesPerProc) (r.numThreads - 1) % 2 ^ 16 =
      min ((id - r.nodesBase) / r.nodesPerProc) (r.numThreads - 1) := Nat.mod_eq_of_lt (by omega)
  rw [findProcOwner, assert_pos hproc.ne', ok_bind, hc.getNodesBase_eq htotal]
  simp only [toNodeId, hmod, toProcessId, hmin]
  rw [Blocks.owner, hc.ofThreads_size hproc]
  rfl

/-- The nodes of a thread in the division of those of its machine. -/
theorem mem_iff (hc : r.Cached total worldSize h) (hproc : 0 < r.nodesPerProc)
    (htotal : total < 2 ^ 32) (hthreads : r.numThreads ≤ 2 ^ 16) (hp : p < r.numThreads) :
    r.findFirstNode p ≤ id ∧ id < r.findLastNode p ↔
      r.nodesBase ≤ id ∧ id < r.nodesBase + r.totalNodes ∧
        (hc.ofThreads hproc).owner (id - r.nodesBase) = p := by
  rw [hc.findFirstNode_eq hproc htotal hthreads hp, hc.findLastNode_eq hproc htotal hthreads hp]
  have hlast : (hc.ofThreads hproc).last p ≤ r.totalNodes := Blocks.last_le hp
  constructor
  · rintro ⟨hfirst, hlt⟩
    have hmem := (Blocks.mem_iff (b := hc.ofThreads hproc) (i := p) (x := id - r.nodesBase) hp
      (show _ < r.totalNodes by omega)).mp ⟨by omega, by omega⟩
    exact ⟨by omega, by omega, hmem⟩
  · rintro ⟨hbase, hlt, howner⟩
    have hmem := (Blocks.mem_iff (b := hc.ofThreads hproc) (i := p) (x := id - r.nodesBase) hp
      (show _ < r.totalNodes by omega)).mpr howner
    omega

end Remote.Cached

/-! ### The agreement -/

/-- For all numbers of nodes, machines and threads that their ids can hold, the intervals of the
threads partition the nodes, and the lookups find the machine and the thread of a node. -/
theorem partition_agrees (useSim : Bool) (total self : ℕ) (threads : List ℕ) (router : Router)
    (hrun : Router.setNodesTotal useSim total self threads = .ok router)
    (hproc : ∀ r ∈ router.remoteList, 0 < r.nodesPerProc) (hself : self < threads.length)
    (htotal : total < 2 ^ 32) (hworld : threads.length < 2 ^ 31)
    (hthreads : ∀ n ∈ threads, n ≤ 2 ^ 16) : router.Agrees total := by
  have hpos : 0 < total / threads.length := nodesPerRemote_pos hrun (by omega) hproc
  obtain ⟨hlen, hper, rfl, hraw⟩ := remoteList_of_setNodesTotal hrun
  have hlist : ∀ (k : ℕ) (r : Remote), router.remoteList[k]? = some r →
      r.Cached total threads.length hpos ∧ r.rank = k ∧ threads[k]? = some r.numThreads := by
    intro k r hr
    obtain ⟨numThreads, hk, hcache⟩ := hraw k r hr
    have hlt : k < threads.length := (List.getElem?_eq_some_iff.mp hk).1
    obtain ⟨hc, hrank, rfl⟩ := Remote.cached_of_cacheValues hlt hcache
    exact ⟨hc, hrank, hk⟩
  have hcached : ∀ r ∈ router.remoteList, r.Cached total threads.length hpos ∧
      router.remoteList[r.rank]? = some r ∧ r.numThreads ≤ 2 ^ 16 := by
    intro r hr
    obtain ⟨k, hk⟩ := List.getElem?_of_mem hr
    obtain ⟨hc, rfl, hnum⟩ := hlist k r hk
    exact ⟨hc, hk, hthreads _ (List.mem_of_getElem? hnum)⟩
  -- what it means to own a node
  have howns : ∀ r p id, router.Owns r p id ↔ ∃ (hr : r ∈ router.remoteList) (_ : id < total),
      (machines total threads.length hpos).owner id = r.rank ∧
        ((hcached r hr).1.ofThreads (hproc r hr)).owner (id - r.nodesBase) = p := by
    intro r p id
    constructor
    · rintro ⟨hr, hp, hmem⟩
      obtain ⟨hc, -, hnum⟩ := hcached r hr
      obtain ⟨hbase, hlt, howner⟩ := (hc.mem_iff (hproc r hr) htotal hnum hp).mp hmem
      have hid : id < total := hlt.trans_le hc.end_le
      refine ⟨hr, hid, (Blocks.mem_iff hc.rank_lt hid).mp ⟨?_, ?_⟩, howner⟩
      · rw [← hc.nodesBase]
        exact hbase
      · rw [← hc.base_add_total]
        exact hlt
    · rintro ⟨hr, hid, hrank, howner⟩
      obtain ⟨hc, -, hnum⟩ := hcached r hr
      have hmem := (Blocks.mem_iff (b := machines total threads.length hpos) hc.rank_lt hid).mpr hrank
      rw [← hc.nodesBase, ← hc.base_add_total] at hmem
      have hp : p < r.numThreads := howner ▸ Blocks.owner_lt _
      exact ⟨hr, hp, (hc.mem_iff (hproc r hr) htotal hnum hp).mpr ⟨hmem.1, hmem.2, howner⟩⟩
  refine ⟨fun r p id h => ?_, fun id hid => ?_, fun r p id h => ?_⟩
  · obtain ⟨-, hid, -⟩ := (howns r p id).mp h
    exact hid
  · have hk : (machines total threads.length hpos).owner id < router.remoteList.length := by
      rw [hlen]
      exact Blocks.owner_lt id
    obtain ⟨r, hr⟩ : ∃ r, router.remoteList[(machines total threads.length hpos).owner id]? =
        some r := ⟨_, List.getElem?_eq_getElem hk⟩
    have hmem := List.mem_of_getElem? hr
    have hrank := (hlist _ r hr).2.1
    refine ⟨(r, _), (howns r _ id).mpr ⟨hmem, hid, hrank.symm, rfl⟩, ?_⟩
    rintro ⟨r', p'⟩ h'
    obtain ⟨hr', -, hrank', howner'⟩ := (howns r' p' id).mp h'
    have hget := (hcached r' hr').2.1
    rw [← hrank', hr] at hget
    obtain rfl := Option.some.inj hget
    exact congrArg (Prod.mk r) howner'.symm
  · obtain ⟨hr, hid, hrank, howner⟩ := (howns r p id).mp h
    obtain ⟨hc, hget, hnum⟩ := hcached r hr
    have hbase : r.nodesBase ≤ id := by
      have hmem := (Blocks.mem_iff (b := machines total threads.length hpos) hc.rank_lt hid).mpr
        hrank
      rw [hc.nodesBase]
      exact hmem.1
    refine ⟨?_, ?_⟩
    · have hrank_lt := hc.rank_lt
      rw [Router.findRemote, Router.worldSize, hlen]
      split_ifs with hone
      · have hzero : router.self = r.rank := by omega
        rw [hzero, hget]
        rfl
      · have howner' : min (id / router.nodesPerRemote) (threads.length - 1) = r.rank := by
          rw [hper]
          exact hrank
        have hrem : wrap32 (r.rank : ℕ) = r.rank :=
          wrap32_of_mem (by simp only [maxInt]; omega) (by simp only [maxInt]; omega)
        rw [assert_pos (by rw [hper]; exact hpos), ok_bind, assert_pos (by omega), ok_bind]
        simp only [howner', hrem, Int.toNat_natCast, hget, deref_some]
    · rw [hc.findProcOwner_eq (hproc r hr) htotal hnum hbase hid, howner]

/-- Ten nodes on two machines with two and three threads. -/
theorem partition_agrees_ten : ∃ router, Router.setNodesTotal true 10 0 [2, 3] = .ok router ∧
    router.Agrees 10 :=
  ⟨_, rfl, partition_agrees true 10 0 [2, 3] _ rfl (by decide) (by decide) (by decide) (by decide)
    (by decide)⟩

/-- With one thread more than a `process_id` can number, the last thread gets the nodes of the first
one. -/
theorem not_partition_agrees : ∃ router,
    Router.setNodesTotal false 65537 0 [65537] = .ok router ∧
    (∀ r ∈ router.remoteList, 0 < r.nodesPerProc) ∧ ¬ router.Agrees 65537 := by
  refine ⟨_, rfl, by decide, fun h => ?_⟩
  have hfirst := h.lookup ⟨0, 65537, true, 65537, 0, 1⟩ 0 0 (by decide +kernel)
  have hlast := h.lookup ⟨0, 65537, true, 65537, 0, 1⟩ 65536 0 (by decide +kernel)
  have heq := Except.ok.inj (hfirst.2.symm.trans hlast.2)
  exact absurd heq (by decide)

end Meld.Process
