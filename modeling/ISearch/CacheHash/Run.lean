import ISearch.CacheHash.Invariant

/-!
# Histories of the hash index

Through every history of lookups, allocations, moves and purges a key is found if and only if its
data were inserted and not purged since, as long as the hash is declared stable (`hashChanging`
off) only when every node in use already is in the chain of the target hash.
-/

namespace ISearch.CacheHash

open Function

variable {K : Type} {hhSize : UInt32} [NeZero hhSize.toNat] [DecidableEq K]
  (hash : Bool → K → UInt32)

/-- The node is in the chain of the bucket. -/
def HashT.InChain (h : HashT hhSize) (b : Fin hhSize.toNat) (node : NodeId) : Prop :=
  ∃ l, IsChain h.nextNodeId invalidNodeId (h.hhBuckets b) l ∧ node ∈ l

/-- The flags may be changed so: the migration goes on, or there is nothing left to migrate. -/
def Permitted (s : State K hhSize) : Op K → Prop
  | .setFlags hashChanging targetNewHash => hashChanging = true ∨
    ∀ node key, s.pool.used node = some key →
      s.pool.hash.InChain (Pool.slot hash targetNewHash key) node
  | _ => True

/-- What the index is for. -/
structure State.Indexed (s : State K hhSize) (chains : Fin hhSize.toNat → List NodeId) :
    Prop where
  found : ∀ key, ∃ pool r, s.pool.cacheFindAutoChoseHash hash key = some (pool, r) ∧
    (r ≠ none ↔ key ∈ s.inserted)
  chain : ∀ b, IsChain s.pool.hash.nextNodeId invalidNodeId (s.pool.hash.hhBuckets b) (chains b)
  nodup : ∀ b, (chains b).Nodup
  disjoint : ∀ b b' node, node ∈ chains b → node ∈ chains b' → b = b'
  notFreed : ∀ b, ∀ node ∈ chains b, s.pool.used node ≠ none
  linked : ∀ key ∈ s.inserted, ∃ node, (∀ i, s.pool.used i = some key ↔ i = node) ∧
    s.pool.vdHandle node = some key ∧ ∃ newhash, node ∈ chains (Pool.slot hash newhash key)
  hhNode : s.pool.hash.hhNode.toNat = ∑ b, (chains b).length
  hhFree : s.pool.hash.hhFree.toNat = (Finset.univ.filter fun b => chains b = []).card

/-- The invariant of a history. -/
def State.Inv (s : State K hhSize) : Prop :=
  (∃ chains, s.pool.Inv hash chains) ∧ ∀ key, s.pool.Present key ↔ key ∈ s.inserted

variable {hash}

omit [NeZero hhSize.toNat] in
theorem HashT.Linked.sum_length_lt {h : HashT hhSize} {chains : Fin hhSize.toNat → List NodeId}
    (hl : h.Linked chains) : ∑ b, (chains b).length < 2 ^ 32 := by
  have hnodup : ((List.finRange hhSize.toNat).flatMap chains).Nodup := by
    refine List.nodup_flatMap.mpr ⟨fun b _ => hl.nodup b, ?_⟩
    apply (List.nodup_finRange _).imp
    intro b b' hne i hi hi'
    exact hne (hl.disjoint hi hi')
  have hvalid : invalidNodeId ∉ (List.finRange hhSize.toNat).flatMap chains := by
    intro hmem
    obtain ⟨b, -, hb⟩ := List.mem_flatMap.mp hmem
    exact hl.invalid_notMem b hb
  have hlen := length_lt_maxNodes hnodup hvalid
  rwa [List.length_flatMap, ← Fin.sum_univ_def] at hlen

theorem State.Inv.indexed {s : State K hhSize} (hs : s.Inv hash) :
    ∃ chains, s.Indexed hash chains := by
  obtain ⟨⟨chains, hp⟩, hpresent⟩ := hs
  refine ⟨chains, ?_, hp.linked.chain, hp.linked.nodup, ?_, ?_, ?_, ?_, ?_⟩
  · intro key
    obtain ⟨pool, r, -, heq, -, hclean, hfound, hmiss⟩ := hp.cacheFindAutoChoseHash key
    refine ⟨pool, r, heq, ?_⟩
    rw [← hpresent, ← hclean.present]
    cases r with
    | none => simpa [Pool.Present] using fun i hi => absurd hi (hmiss rfl i)
    | some i => simpa using ⟨i, hfound i rfl⟩
  · exact fun b b' node => hp.linked.disjoint
  · intro b node hmem
    obtain ⟨key, hused, -⟩ := hp.placed hmem
    simp [hused]
  · intro key hkey
    obtain ⟨node, hused, hdata⟩ := (hpresent key).mpr hkey
    obtain ⟨b, hmem⟩ := hp.used hused
    obtain ⟨key', hused', newhash, hb, -⟩ := hp.placed hmem
    obtain rfl : key = key' := Option.some.inj (hused.symm.trans hused')
    refine ⟨node, fun i => ⟨fun hi => hp.inj hi hused, ?_⟩, hdata, newhash, hb ▸ hmem⟩
    rintro rfl
    exact hused
  · rw [hp.linked.node, UInt32.toNat_ofNat_of_lt' hp.linked.sum_length_lt]
  · rw [hp.linked.free, ← Finset.card_filter, UInt32.toNat_ofNat_of_lt']
    exact (Finset.card_filter_le _ _).trans_lt (by simpa using hhSize.toNat_lt)

omit [DecidableEq K] in
theorem State.Inv.init (hashChanging targetNewHash : Bool) :
    (State.init hashChanging targetNewHash : State K hhSize).Inv hash := by
  refine ⟨⟨fun _ => [], ⟨?_, by simp, by simp [State.init], by simp [State.init],
    by simp [State.init]⟩⟩, by simp [State.init, Pool.Present]⟩
  exact ⟨fun _ => rfl, by simp, by simp, by simp, by simp [State.init], by simp [State.init]⟩

omit [DecidableEq K] in
theorem State.Inv.setFlags {s : State K hhSize} (hs : s.Inv hash)
    {hashChanging targetNewHash : Bool}
    (hp : Permitted hash s (.setFlags hashChanging targetNewHash)) :
    State.Inv hash { s with pool := { s.pool with hashChanging, targetNewHash } } := by
  obtain ⟨⟨chains, hs⟩, hpresent⟩ := hs
  refine ⟨⟨chains, hs.linked, ?_, hs.used, hs.inj, hs.data⟩, hpresent⟩
  intro b i hi
  obtain ⟨key, hused, newhash, hb, -⟩ := hs.placed hi
  refine ⟨key, hused, ?_⟩
  rcases hp with hchanging | hmoved
  · exact ⟨newhash, hb, .inl hchanging⟩
  · obtain ⟨l, hl, hmem⟩ := hmoved i key hused
    rw [hl.unique (hs.linked.chain _)] at hmem
    exact ⟨targetNewHash, hs.linked.disjoint hi hmem, .inr rfl⟩

theorem State.Inv.attach {s : State K hhSize} (hs : s.Inv hash) {node : NodeId} {key : K}
    (hnode : s.pool.used node = some key) :
    State.Inv hash
      { pool := { s.pool with vdHandle := update s.pool.vdHandle node (some key) }
        inserted := insert key s.inserted } := by
  obtain ⟨⟨chains, hs⟩, hpresent⟩ := hs
  refine ⟨⟨chains, hs.linked, hs.placed, hs.used, hs.inj, ?_⟩, ?_⟩
  · intro i k k' hused hdata
    dsimp only at hused hdata
    by_cases hi : i = node
    · subst hi
      rw [update_self] at hdata
      exact Option.some.inj (hdata.symm.trans (hnode.symm.trans hused))
    · rw [update_of_ne hi] at hdata
      exact hs.data hused hdata
  · intro k
    rw [Finset.mem_insert, ← hpresent]
    constructor
    · rintro ⟨i, hused, hdata⟩
      dsimp only at hused hdata
      by_cases hi : i = node
      · subst hi
        exact .inl (Option.some.inj (hused.symm.trans hnode))
      · rw [update_of_ne hi] at hdata
        exact .inr ⟨i, hused, hdata⟩
    · rintro (rfl | ⟨i, hused, hdata⟩)
      · exact ⟨node, hnode, update_self ..⟩
      · by_cases hi : i = node
        · subst hi
          refine ⟨i, hused, (update_self ..).trans ?_⟩
          exact hnode.symm.trans hused
        · exact ⟨i, hused, (update_of_ne hi _ _).trans hdata⟩

theorem State.Inv.purgeUsed {s : State K hhSize} (hs : s.Inv hash) {node : NodeId} {key : K}
    (hnode : s.pool.used node = some key) :
    ∃ pool, s.pool.purgeNode hash key node = some pool ∧
      State.Inv hash { pool, inserted := s.inserted.erase key } := by
  obtain ⟨⟨chains, hs⟩, hpresent⟩ := hs
  obtain ⟨pool, chains', heq, hs', hpurged⟩ := hs.purgeUsed hnode
  refine ⟨pool, heq, ⟨chains', hs'⟩, fun k => ?_⟩
  rw [hpurged, hpresent, Finset.mem_erase]

/-- One operation. -/
theorem State.Inv.step (s : State K hhSize) (op : Op K) (hs : s.Inv hash)
    (hp : Permitted hash s op) : ∃ s', step hash s op = some s' ∧ s'.Inv hash := by
  cases op with
  | setFlags hashChanging targetNewHash => exact ⟨_, rfl, hs.setFlags hp⟩
  | find key =>
    obtain ⟨⟨chains, hs⟩, hpresent⟩ := hs
    obtain ⟨pool, r, chains', heq, hs', hclean, -, -⟩ := hs.cacheFindAutoChoseHash key
    refine ⟨{ s with pool }, by simp [CacheHash.step, heq], ⟨chains', hs'⟩, fun k => ?_⟩
    rw [hclean.present, hpresent]
  | allocate key free =>
    obtain ⟨⟨chains, hs⟩, hpresent⟩ := hs
    obtain ⟨pool, r, chains', heq, hs', hclean, -, hmiss⟩ := hs.cacheFindAutoChoseHash key
    cases r with
    | some node =>
      refine ⟨{ s with pool }, by simp [CacheHash.step, heq], ⟨chains', hs'⟩, fun k => ?_⟩
      rw [hclean.present, hpresent]
    | none =>
      obtain ⟨chains'', hs'', hsame⟩ := hs'.cacheAllocate (hmiss rfl) free
      refine ⟨{ s with pool := pool.cacheAllocate hash key free },
        by simp [CacheHash.step, heq], ⟨chains'', hs''⟩, fun k => ?_⟩
      rw [hsame, hclean.present, hpresent]
  | attach node =>
    cases hused : s.pool.used node with
    | none => exact ⟨s, by simp [CacheHash.step, hused], hs⟩
    | some key => exact ⟨_, by simp [CacheHash.step, hused], hs.attach hused⟩
  | move node =>
    cases hused : s.pool.used node with
    | none => exact ⟨s, by simp [CacheHash.step, hused], hs⟩
    | some key =>
      obtain ⟨⟨chains, hs⟩, hpresent⟩ := hs
      obtain ⟨h', chains', heq, hs'⟩ := hs.moveToNewHash hused
      refine ⟨{ s with pool := { s.pool with hash := h' } }, ?_, ⟨chains', hs'⟩, hpresent⟩
      simp [CacheHash.step, hused, heq]
  | purge key =>
    obtain ⟨⟨chains, hs⟩, hpresent⟩ := hs
    obtain ⟨pool, chains', heq, hs', hpurged⟩ := hs.cachePurge key
    refine ⟨{ pool, inserted := s.inserted.erase key }, by simp [CacheHash.step, heq],
      ⟨chains', hs'⟩, fun k => ?_⟩
    rw [hpurged, hpresent, Finset.mem_erase]
  | abandon node =>
    cases hused : s.pool.used node with
    | none => exact ⟨s, by simp [CacheHash.step, hused], hs⟩
    | some key =>
      obtain ⟨pool, heq, hs'⟩ := hs.purgeUsed hused
      exact ⟨_, by simp [CacheHash.step, hused, heq], hs'⟩
  | purgeNode node =>
    cases hdata : s.pool.dataKey node with
    | none => exact ⟨s, by simp [CacheHash.step, hdata], hs⟩
    | some key =>
      have hused : s.pool.used node = some key := by
        obtain ⟨⟨chains, hs⟩, -⟩ := hs
        rw [Pool.dataKey] at hdata
        cases hused : s.pool.used node with
        | none => simp [hused] at hdata
        | some key' =>
          rw [if_neg (by simp [hused])] at hdata
          rw [hs.data hused hdata]
      obtain ⟨pool, heq, hs'⟩ := hs.purgeUsed hused
      exact ⟨_, by simp [CacheHash.step, hdata, heq], hs'⟩

/-- Every history. -/
theorem run_indexed (hashChanging targetNewHash : Bool) (ops : List (Op K))
    (hops : AlongRun (step hash) (Permitted hash)
      (State.init hashChanging targetNewHash : State K hhSize) ops) :
    ∃ s chains, runOps (step hash) (State.init hashChanging targetNewHash : State K hhSize) ops =
      some s ∧ s.Indexed hash chains := by
  obtain ⟨s, hrun, hs⟩ := invariant_along State.Inv.step (State.Inv.init _ _) ops hops
  obtain ⟨chains, hindexed⟩ := hs.indexed
  exact ⟨s, chains, hrun, hindexed⟩

instance neZeroTwo : NeZero (UInt32.toNat 2) := ⟨by decide⟩

/-- Two hash functions that put every key in different ones of two buckets. -/
def parityHash (newhash : Bool) (key : UInt32) : UInt32 := if newhash then key + 1 else key

/-- A key inserted under one hash is not found when the configuration names the other hash as the
stable one. -/
theorem not_found_after_switch :
    ∃ s : State UInt32 2, runOps (step parityHash) (State.init false false)
        [.allocate 0 (some 256), .attach 256, .setFlags false true] = some s ∧
      0 ∈ s.inserted ∧ ∃ pool, s.pool.cacheFindAutoChoseHash parityHash 0 = some (pool, none) :=
  ⟨_, rfl, by decide, _, rfl⟩

/-- The migration done in order: the key is looked up, and so moved, before the switch. -/
theorem run_indexed_migration : ∃ (s : State UInt32 2) (chains : _),
    runOps (step parityHash) (State.init false false)
      [.allocate 0 (some 256), .attach 256, .setFlags true true, .find 0, .setFlags false true] =
      some s ∧ s.Indexed parityHash chains := by
  apply run_indexed
  refine ⟨trivial, ?_⟩
  rintro _ ⟨⟩
  refine ⟨trivial, ?_⟩
  rintro _ ⟨⟩
  refine ⟨.inl rfl, ?_⟩
  rintro _ ⟨⟩
  refine ⟨trivial, ?_⟩
  rintro _ ⟨⟩
  refine ⟨.inr ?_, fun _ _ => trivial⟩
  intro node key hused
  have hused' : update (fun _ => none) 256 (some 0) node = some key := hused
  by_cases hnode : node = 256
  · subst hnode
    rw [update_self] at hused'
    obtain rfl : 0 = key := Option.some.inj hused'
    exact ⟨[256], ⟨rfl, by decide, rfl⟩, List.mem_singleton_self _⟩
  · rw [update_of_ne hnode] at hused'
    exact nomatch hused'

end ISearch.CacheHash
