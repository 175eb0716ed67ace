import ISearch.CacheHash.Chains

/-!
# The invariant of the hash index

Every node in use is in one chain, in a slot where its key is looked for under the current flags,
and no two nodes in use have the same key. The operations of the pool keep this; each is described
by what it does to the nodes in use.
-/

namespace ISearch.CacheHash

open Function

variable {K : Type} {hhSize : UInt32}

/-- The chains without a node. -/
def eraseNode (chains : Fin hhSize.toNat → List NodeId) (node : NodeId) (b : Fin hhSize.toNat) :
    List NodeId := (chains b).erase node

theorem update_erase_of_notMem {chains : Fin hhSize.toNat → List NodeId} {node : NodeId}
    {b : Fin hhSize.toNat} (h : node ∉ chains b) :
    update chains b ((chains b).erase node) = chains := by
  rw [List.erase_of_not_mem h, update_eq_self]

theorem update_erase_of_mem {chains : Fin hhSize.toNat → List NodeId} {node : NodeId}
    {b : Fin hhSize.toNat} (h : ∀ b' ≠ b, node ∉ chains b') :
    update chains b ((chains b).erase node) = eraseNode chains node := by
  funext b'
  by_cases hb : b' = b
  · subst hb
    rw [update_self, eraseNode]
  · rw [update_of_ne hb, eraseNode, List.erase_of_not_mem (h b' hb)]

theorem HashT.Linked.mem_eraseNode {h : HashT hhSize} {chains : Fin hhSize.toNat → List NodeId}
    (hl : h.Linked chains) {node i : NodeId} {b : Fin hhSize.toNat} :
    i ∈ eraseNode chains node b ↔ i ≠ node ∧ i ∈ chains b :=
  (hl.nodup b).mem_erase_iff

namespace Pool

variable [NeZero hhSize.toNat] (hash : Bool → K → UInt32)

/-- A key is looked for in the chain of this slot. -/
def Searched (s : Pool K hhSize) (key : K) (b : Fin hhSize.toNat) : Prop :=
  ∃ newhash, b = slot hash newhash key ∧ (s.hashChanging = true ∨ newhash = s.targetNewHash)

structure Inv (s : Pool K hhSize) (chains : Fin hhSize.toNat → List NodeId) : Prop where
  linked : s.hash.Linked chains
  placed : ∀ {b i}, i ∈ chains b → ∃ key, s.used i = some key ∧ s.Searched hash key b
  used : ∀ {i key}, s.used i = some key → ∃ b, i ∈ chains b
  inj : ∀ {i j key}, s.used i = some key → s.used j = some key → i = j
  data : ∀ {i key key'}, s.used i = some key → s.vdHandle i = some key' → key' = key

/-- The data of a key are in the pool. -/
def Present (s : Pool K hhSize) (key : K) : Prop :=
  ∃ i, s.used i = some key ∧ s.vdHandle i = some key

/-- `s'` is `s` without some nodes that have no data. -/
structure Cleaned (s s' : Pool K hhSize) : Prop where
  hashChanging : s'.hashChanging = s.hashChanging
  targetNewHash : s'.targetNewHash = s.targetNewHash
  vdHandle : s'.vdHandle = s.vdHandle
  used : ∀ i, s'.used i = s.used i ∨ s'.used i = none ∧ s.vdHandle i = none

omit [NeZero hhSize.toNat] in
theorem Cleaned.refl (s : Pool K hhSize) : s.Cleaned s := ⟨rfl, rfl, rfl, fun _ => .inl rfl⟩

omit [NeZero hhSize.toNat] in
theorem Cleaned.trans {s s' s'' : Pool K hhSize} (h : s.Cleaned s') (h' : s'.Cleaned s'') :
    s.Cleaned s'' where
  hashChanging := h'.hashChanging.trans h.hashChanging
  targetNewHash := h'.targetNewHash.trans h.targetNewHash
  vdHandle := h'.vdHandle.trans h.vdHandle
  used i := by
    rcases h'.used i with heq | ⟨hnone, hdata⟩
    · rw [heq]
      exact h.used i
    · rw [h.vdHandle] at hdata
      exact .inr ⟨hnone, hdata⟩

omit [NeZero hhSize.toNat] in
theorem Cleaned.present {s s' : Pool K hhSize} (h : s.Cleaned s') (key : K) :
    s'.Present key ↔ s.Present key := by
  constructor
  · rintro ⟨i, hused, hdata⟩
    rw [h.vdHandle] at hdata
    rcases h.used i with heq | ⟨hnone, -⟩
    · exact ⟨i, heq ▸ hused, hdata⟩
    · simp [hnone] at hused
  · rintro ⟨i, hused, hdata⟩
    rcases h.used i with heq | ⟨-, hnone⟩
    · exact ⟨i, heq.trans hused, h.vdHandle ▸ hdata⟩
    · simp [hnone] at hdata

variable {hash} {s : Pool K hhSize} {chains : Fin hhSize.toNat → List NodeId}

theorem Inv.removeFromHash (hs : s.Inv hash chains) {key : K} {node : NodeId}
    {b : Fin hhSize.toNat} (hnode : node ∈ chains b) (hb : s.Searched hash key b) :
    ∃ h', s.removeFromHash hash key node = some { s with hash := h' } ∧
      h'.nodeIndex = s.hash.nodeIndex ∧ h'.Linked (eraseNode chains node) := by
  have hother : ∀ b' ≠ b, node ∉ chains b' :=
    fun b' hb' hmem => hb' (hs.linked.disjoint hmem hnode)
  have hnot : ∀ b', node ∉ eraseNode chains node b' :=
    fun b' hmem => (hs.linked.mem_eraseNode.mp hmem).1 rfl
  obtain ⟨newhash, hslot, hflag⟩ := hb
  unfold Pool.removeFromHash
  by_cases hc : s.hashChanging = true
  · obtain ⟨r₁, h₁, heq₁, hidx₁, hl₁⟩ := hs.linked.removeFromHashBase (slot hash true key) node
    obtain ⟨r₂, h₂, heq₂, hidx₂, hl₂⟩ := hl₁.removeFromHashBase (slot hash false key) node
    refine ⟨h₂, by simp [hc, heq₁, heq₂], hidx₂.trans hidx₁, ?_⟩
    by_cases hfirst : slot hash true key = b
    · rw [hfirst, update_erase_of_mem hother, update_erase_of_notMem (hnot _)] at hl₂
      exact hl₂
    · have hb : slot hash false key = b := by
        cases newhash with
        | true => exact absurd hslot.symm hfirst
        | false => exact hslot.symm
      rw [update_erase_of_notMem (hother _ hfirst), hb, update_erase_of_mem hother] at hl₂
      exact hl₂
  · obtain ⟨r, h', heq, hidx, hl⟩ :=
      hs.linked.removeFromHashBase (slot hash s.targetNewHash key) node
    refine ⟨h', by simp [hc, heq], hidx, ?_⟩
    rw [← hflag.resolve_left hc, ← hslot, update_erase_of_mem hother] at hl
    exact hl

theorem Inv.purgeNode (hs : s.Inv hash chains) {key : K} {node : NodeId}
    {b : Fin hhSize.toNat} (hnode : node ∈ chains b) (hb : s.Searched hash key b) :
    ∃ h', s.purgeNode hash key node =
        some { s with hash := h', used := update s.used node none } ∧
      Inv hash { s with hash := h', used := update s.used node none }
        (eraseNode chains node) := by
  obtain ⟨h', heq, -, hl⟩ := hs.removeFromHash hnode hb
  have hnot : ∀ b', node ∉ eraseNode chains node b' :=
    fun b' hmem => (hs.linked.mem_eraseNode.mp hmem).1 rfl
  have hused : ∀ {i key}, update s.used node none i = some key →
      i ≠ node ∧ s.used i = some key := by
    intro i key hi
    by_cases hin : i = node
    · simp [hin] at hi
    · exact ⟨hin, by rwa [update_of_ne hin] at hi⟩
  refine ⟨_, by rw [Pool.purgeNode, heq]; rfl, hl.reset hnot, ?_, ?_, ?_, ?_⟩
  · intro b' i hi
    obtain ⟨hne, hi⟩ := hs.linked.mem_eraseNode.mp hi
    obtain ⟨key', hused', hsearched⟩ := hs.placed hi
    exact ⟨key', (update_of_ne hne _ _).trans hused', hsearched⟩
  · intro i key' hi
    obtain ⟨hne, hi⟩ := hused hi
    obtain ⟨b', hmem⟩ := hs.used hi
    exact ⟨b', hs.linked.mem_eraseNode.mpr ⟨hne, hmem⟩⟩
  · exact fun hi hj => hs.inj (hused hi).2 (hused hj).2
  · exact fun hi hdata => hs.data (hused hi).2 hdata

/-- The node of a key is moved to the chain of the target hash. -/
theorem Inv.moveToNewHash (hs : s.Inv hash chains) {key : K} {node : NodeId}
    (hnode : s.used node = some key) :
    ∃ h' chains', s.moveToNewHash hash key node = some { s with hash := h' } ∧
      Inv hash { s with hash := h' } chains' := by
  obtain ⟨b, hmem⟩ := hs.used hnode
  obtain ⟨key', hkey', hsearched⟩ := hs.placed hmem
  obtain rfl : key = key' := Option.some.inj (hnode.symm.trans hkey')
  obtain ⟨h', heq, hidx, hl⟩ := hs.removeFromHash hmem hsearched
  have hnot : ∀ b', node ∉ eraseNode chains node b' :=
    fun b' hmem => (hs.linked.mem_eraseNode.mp hmem).1 rfl
  have hvalid : node ≠ invalidNodeId :=
    fun h => hs.linked.invalid_notMem b (h ▸ hmem)
  have hindex : h'.nodeIndex node = true := hidx ▸ hs.linked.index hmem
  refine ⟨h'.insert2Hash (slot hash s.targetNewHash key) node,
    update (eraseNode chains node) (slot hash s.targetNewHash key)
      (node :: eraseNode chains node (slot hash s.targetNewHash key)),
    by rw [Pool.moveToNewHash, heq]; rfl, ?_, ?_, ?_, hs.inj, hs.data⟩
  · exact hl.insert2Hash hvalid hindex hnot
  · intro b' i hi
    rcases HashT.mem_update_cons.mp hi with ⟨rfl, rfl⟩ | hi
    · exact ⟨key, hnode, s.targetNewHash, rfl, .inr rfl⟩
    · exact hs.placed (hs.linked.mem_eraseNode.mp hi).2
  · intro i key' hi
    obtain ⟨b', hmem'⟩ := hs.used hi
    by_cases hin : i = node
    · exact ⟨_, HashT.mem_update_cons.mpr (.inl ⟨hin, rfl⟩)⟩
    · exact ⟨b', HashT.mem_update_cons.mpr (.inr (hs.linked.mem_eraseNode.mpr ⟨hin, hmem'⟩))⟩

/-! ## Lookups -/

variable [DecidableEq K]

omit [NeZero hhSize.toNat] [DecidableEq K] in
theorem cleaned_update {h' : HashT hhSize} {node : NodeId} (hdata : s.vdHandle node = none) :
    s.Cleaned { s with hash := h', used := update s.used node none } := by
  refine ⟨rfl, rfl, rfl, fun i => ?_⟩
  by_cases hi : i = node
  · subst hi
    exact .inr ⟨update_self .., hdata⟩
  · exact .inl (update_of_ne hi _ _)

theorem Inv.findLoop (hs : s.Inv hash chains) {key : K} {b : Fin hhSize.toNat}
    (hb : s.Searched hash key b) {pre rest : List NodeId} (hchain : chains b = pre ++ rest)
    {fuel : Nat} (hfuel : rest.length < fuel) :
    ∃ s' r chains', findLoop hash key fuel s rest.head? = some (s', r) ∧ s'.Inv hash chains' ∧
      s.Cleaned s' ∧ (∀ b' ≠ b, chains' b' = chains b') ∧
      (∀ i, r = some i → i ∈ chains' b ∧ s'.vdHandle i = some key) ∧
      (r = none → ∃ rest', chains' b = pre ++ rest' ∧
        ∀ i ∈ rest', ∃ other, s'.vdHandle i = some other ∧ other ≠ key) := by
  induction rest generalizing s chains pre fuel with
  | nil =>
    obtain ⟨fuel, rfl⟩ := Nat.exists_eq_add_one_of_ne_zero (ne_of_gt hfuel)
    refine ⟨s, none, chains, rfl, hs, Cleaned.refl s, fun _ _ => rfl, by simp, fun _ => ?_⟩
    exact ⟨[], hchain, by simp⟩
  | cons iter rest ih =>
    obtain ⟨fuel, rfl⟩ := Nat.exists_eq_add_one_of_ne_zero (ne_of_gt (Nat.zero_lt_of_lt hfuel))
    have hfuel' : rest.length < fuel := Nat.lt_of_succ_lt_succ hfuel
    have hiter : iter ∈ chains b := by simp [hchain]
    have hnext : s.hash.search (s.hash.nextNodeId iter) = rest.head? := by
      have hc := hs.linked.chain b
      rw [hchain] at hc
      exact HashT.search_head hc.suffix fun i hi => hs.linked.index (b := b) (by simp [hchain, hi])
    rw [List.head?_cons, Pool.findLoop]
    cases hdata : s.vdHandle iter with
    | none =>
      obtain ⟨h', hpurge, hs₁⟩ := hs.purgeNode hiter hb
      have herase : eraseNode chains iter b = pre ++ rest := by
        have hnodup := hs.linked.nodup b
        rw [hchain, List.nodup_middle, List.nodup_cons, List.mem_append, not_or] at hnodup
        rw [eraseNode, hchain, List.erase_append_right _ hnodup.1.1, List.erase_cons_head]
      obtain ⟨s', r, chains', heq, hs', hclean, hother, hfound, hmiss⟩ :=
        ih hs₁ hb herase hfuel'
      refine ⟨s', r, chains', by
        simp [hpurge, hnext, heq], hs', (cleaned_update hdata).trans hclean, ?_, hfound,
        hmiss⟩
      intro b' hb'
      rw [hother b' hb', eraseNode]
      exact List.erase_of_not_mem fun hmem => hb' (hs.linked.disjoint hmem hiter)
    | some other =>
      by_cases hkey : key = other
      · subst hkey
        refine ⟨s, some iter, chains, by simp, hs, Cleaned.refl s, fun _ _ => rfl, ?_, by simp⟩
        rintro i ⟨rfl⟩
        exact ⟨hiter, hdata⟩
      · have hchain' : chains b = (pre ++ [iter]) ++ rest := by rw [hchain, List.append_cons]
        obtain ⟨s', r, chains', heq, hs', hclean, hother, hfound, hmiss⟩ := ih hs hb hchain' hfuel'
        refine ⟨s', r, chains', by simp [hkey, hnext, heq], hs', hclean, hother, hfound, ?_⟩
        intro hr
        obtain ⟨rest', hrest', hall⟩ := hmiss hr
        refine ⟨iter :: rest', by rw [hrest', ← List.append_cons], ?_⟩
        intro i hi
        rcases List.mem_cons.mp hi with rfl | hi
        · exact ⟨other, by rw [hclean.vdHandle, hdata], Ne.symm hkey⟩
        · exact hall i hi

theorem Inv.cacheFind (hs : s.Inv hash chains) (key : K) (newhash : Bool)
    (hb : s.Searched hash key (slot hash newhash key)) :
    ∃ s' r chains', s.cacheFind hash key newhash = some (s', r) ∧ s'.Inv hash chains' ∧
      s.Cleaned s' ∧ (∀ b' ≠ slot hash newhash key, chains' b' = chains b') ∧
      (∀ i, r = some i → s'.used i = some key ∧ s'.vdHandle i = some key) ∧
      (r = none → ∀ i ∈ chains' (slot hash newhash key), s'.used i ≠ some key) := by
  have hc := hs.linked.chain (slot hash newhash key)
  have hsearch := HashT.search_head hc fun i hi => hs.linked.index hi
  unfold Pool.cacheFind
  by_cases hhead : s.hash.hhBuckets (slot hash newhash key) = invalidNodeId
  · refine ⟨s, none, chains, if_pos hhead, hs, Cleaned.refl s, fun _ _ => rfl, by simp, ?_⟩
    intro _ i hi
    rw [hc.head_eq_nil.mp hhead] at hi
    exact absurd hi List.not_mem_nil
  · have hlen := length_lt_maxNodes (hs.linked.nodup _)
      (hs.linked.invalid_notMem (slot hash newhash key))
    obtain ⟨s', r, chains', heq, hs', hclean, hother, hfound, hmiss⟩ :=
      hs.findLoop hb (List.nil_append _).symm (Nat.lt_succ_of_lt hlen)
    refine ⟨s', r, chains', by rw [if_neg hhead, hsearch, heq], hs', hclean, hother, ?_, ?_⟩
    · intro i hr
      obtain ⟨hmem, hdata⟩ := hfound i hr
      obtain ⟨key', hused, -⟩ := hs'.placed hmem
      rw [hs'.data hused hdata]
      exact ⟨hused, hs'.data hused hdata ▸ hdata⟩
    · intro hr i hi hused
      obtain ⟨rest', hrest, hall⟩ := hmiss hr
      rw [hrest, List.nil_append] at hi
      obtain ⟨other, hdata, hne⟩ := hall i hi
      exact hne (hs'.data hused hdata)

omit [DecidableEq K] in
/-- A node in use under the key would be in one of the two chains searched. -/
theorem Inv.not_used_of_misses {s₁ s₂ : Pool K hhSize}
    {chains₁ chains₂ : Fin hhSize.toNat → List NodeId} {key : K} {newhash : Bool}
    (hs₂ : s₂.Inv hash chains₂) (hclean : s₁.Cleaned s₂)
    (hother : ∀ b' ≠ slot hash newhash key, chains₂ b' = chains₁ b')
    (hmiss₁ : ∀ i ∈ chains₁ (slot hash (!newhash) key), s₁.used i ≠ some key)
    (hmiss₂ : ∀ i ∈ chains₂ (slot hash newhash key), s₂.used i ≠ some key) (i : NodeId) :
    s₂.used i ≠ some key := by
  intro hused
  obtain ⟨b, hmem⟩ := hs₂.used hused
  obtain ⟨key', hkey', hash', hb, -⟩ := hs₂.placed hmem
  obtain rfl : key = key' := Option.some.inj (hused.symm.trans hkey')
  subst hb
  by_cases hslot : (slot hash hash' key : Fin hhSize.toNat) = slot hash newhash key
  · rw [hslot] at hmem
    exact hmiss₂ i hmem hused
  · have hflag : hash' = !newhash := by
      apply Bool.eq_not.mpr
      rintro rfl
      exact hslot rfl
    rw [hother _ hslot, hflag] at hmem
    apply hmiss₁ i hmem
    rcases hclean.used i with heq | ⟨hnone, -⟩
    · rw [← heq, hused]
    · simp [hnone] at hused

/-- A lookup finds the node of the key if it has data, and leaves no node without data under the
key. -/
theorem Inv.cacheFindAutoChoseHash (hs : s.Inv hash chains) (key : K) :
    ∃ s' r chains', s.cacheFindAutoChoseHash hash key = some (s', r) ∧ s'.Inv hash chains' ∧
      s.Cleaned s' ∧ (∀ i, r = some i → s'.used i = some key ∧ s'.vdHandle i = some key) ∧
      (r = none → ∀ i, s'.used i ≠ some key) := by
  unfold Pool.cacheFindAutoChoseHash
  by_cases hc : s.hashChanging = true
  · obtain ⟨s₁, r₁, chains₁, heq₁, hs₁, hclean₁, -, hfound₁, hmiss₁⟩ :=
      hs.cacheFind key (!s.targetNewHash) ⟨_, rfl, .inl hc⟩
    simp only [hc, if_true, heq₁, Option.bind_eq_bind, Option.bind_some]
    cases r₁ with
    | some node =>
      obtain ⟨hused, hdata⟩ := hfound₁ node rfl
      obtain ⟨h', chains', heq, hs'⟩ := hs₁.moveToNewHash hused
      refine ⟨_, some node, chains', by simp [heq], hs', ?_, ?_, by simp⟩
      · exact hclean₁.trans ⟨rfl, rfl, rfl, fun _ => .inl rfl⟩
      · rintro i ⟨rfl⟩
        exact ⟨hused, hdata⟩
    | none =>
      obtain ⟨s₂, r₂, chains₂, heq₂, hs₂, hclean₂, hother₂, hfound₂, hmiss₂⟩ :=
        hs₁.cacheFind key s.targetNewHash ⟨_, rfl, .inl (hclean₁.hashChanging.trans hc)⟩
      refine ⟨s₂, r₂, chains₂, heq₂, hs₂, hclean₁.trans hclean₂, hfound₂, ?_⟩
      intro hr
      exact hs₂.not_used_of_misses hclean₂ hother₂ (hmiss₁ rfl) (hmiss₂ hr)
  · obtain ⟨s₁, r₁, chains₁, heq₁, hs₁, hclean₁, -, hfound₁, hmiss₁⟩ :=
      hs.cacheFind key s.targetNewHash ⟨_, rfl, .inr rfl⟩
    refine ⟨s₁, r₁, chains₁, by simp [hc, heq₁], hs₁, hclean₁, hfound₁, ?_⟩
    intro hr i hused
    obtain ⟨b, hmem⟩ := hs₁.used hused
    obtain ⟨key', hkey', hash', hb, hflag⟩ := hs₁.placed hmem
    obtain rfl : key = key' := Option.some.inj (hused.symm.trans hkey')
    rw [hclean₁.hashChanging, hclean₁.targetNewHash] at hflag
    rw [hb, hflag.resolve_left hc] at hmem
    exact hmiss₁ hr i hmem hused

/-! ## Allocation and purge -/

omit [DecidableEq K] in
theorem Inv.cacheAllocate (hs : s.Inv hash chains) {key : K} (hkey : ∀ i, s.used i ≠ some key)
    (free : Option NodeId) :
    ∃ chains', (s.cacheAllocate hash key free).Inv hash chains' ∧
      ∀ k, (s.cacheAllocate hash key free).Present k ↔ s.Present k := by
  unfold Pool.cacheAllocate Pool.allocateNode
  cases free with
  | none => exact ⟨chains, hs, fun _ => Iff.rfl⟩
  | some id =>
    by_cases hfree : id = invalidNodeId ∨ s.used id ≠ none
    · simp only [if_pos hfree]
      exact ⟨chains, hs, fun _ => trivial⟩
    simp only [if_neg hfree]
    rw [not_or, not_not] at hfree
    obtain ⟨hvalid, hunused⟩ := hfree
    have hnot : ∀ b, id ∉ chains b := by
      intro b hmem
      obtain ⟨key', hused, -⟩ := hs.placed hmem
      simp [hunused] at hused
    have hne : ∀ {i k}, s.used i = some k → i ≠ id := by
      rintro i k hused rfl
      simp [hunused] at hused
    have hused : ∀ {i k}, update s.used id (some key) i = some k →
        i = id ∧ k = key ∨ i ≠ id ∧ s.used i = some k := by
      intro i k hi
      by_cases hin : i = id
      · subst hin
        rw [update_self] at hi
        exact .inl ⟨rfl, (Option.some.inj hi).symm⟩
      · rw [update_of_ne hin] at hi
        exact .inr ⟨hin, hi⟩
    refine ⟨update chains (slot hash s.targetNewHash key)
      (id :: chains (slot hash s.targetNewHash key)), ⟨?_, ?_, ?_, ?_, ?_⟩, ?_⟩
    · exact (hs.linked.register hnot).insert2Hash hvalid (update_self ..) hnot
    · intro b i hi
      rcases HashT.mem_update_cons.mp hi with ⟨rfl, rfl⟩ | hi
      · exact ⟨key, update_self .., s.targetNewHash, rfl, .inr rfl⟩
      · obtain ⟨k, hk, hsearched⟩ := hs.placed hi
        exact ⟨k, (update_of_ne (hne hk) _ _).trans hk, hsearched⟩
    · intro i k hi
      rcases hused hi with ⟨rfl, -⟩ | ⟨-, hi⟩
      · exact ⟨_, HashT.mem_update_cons.mpr (.inl ⟨rfl, rfl⟩)⟩
      · obtain ⟨b, hmem⟩ := hs.used hi
        exact ⟨b, HashT.mem_update_cons.mpr (.inr hmem)⟩
    · intro i j k hi hj
      rcases hused hi with ⟨hi, hk⟩ | ⟨-, hi⟩ <;> rcases hused hj with ⟨hj, hk'⟩ | ⟨-, hj⟩
      · rw [hi, hj]
      · exact absurd (hk ▸ hj) (hkey j)
      · exact absurd (hk' ▸ hi) (hkey i)
      · exact hs.inj hi hj
    · intro i k k' hi hdata
      rcases hused hi with ⟨rfl, -⟩ | ⟨hin, hi⟩
      · simp [Pool.insert2Hash] at hdata
      · simp only [Pool.insert2Hash, update_of_ne hin] at hdata
        exact hs.data hi hdata
    · intro k
      constructor
      · rintro ⟨i, hi, hdata⟩
        rcases hused hi with ⟨rfl, -⟩ | ⟨hin, hi⟩
        · simp [Pool.insert2Hash] at hdata
        · simp only [Pool.insert2Hash, update_of_ne hin] at hdata
          exact ⟨i, hi, hdata⟩
      · rintro ⟨i, hi, hdata⟩
        exact ⟨i, (update_of_ne (hne hi) _ _).trans hi,
          (update_of_ne (hne hi) _ _).trans hdata⟩

omit [DecidableEq K] in
theorem Inv.purgeUsed (hs : s.Inv hash chains) {key : K} {node : NodeId}
    (hnode : s.used node = some key) :
    ∃ s' chains', s.purgeNode hash key node = some s' ∧ s'.Inv hash chains' ∧
      ∀ k, s'.Present k ↔ k ≠ key ∧ s.Present k := by
  obtain ⟨b, hmem⟩ := hs.used hnode
  obtain ⟨key', hkey', hsearched⟩ := hs.placed hmem
  obtain rfl : key = key' := Option.some.inj (hnode.symm.trans hkey')
  obtain ⟨h', heq, hs'⟩ := hs.purgeNode hmem hsearched
  refine ⟨_, _, heq, hs', fun k => ?_⟩
  constructor
  · rintro ⟨i, hused, hdata⟩
    by_cases hi : i = node
    · simp [hi] at hused
    · simp only [update_of_ne hi] at hused
      refine ⟨?_, i, hused, hdata⟩
      rintro rfl
      exact hi (hs.inj hused hnode)
  · rintro ⟨hne, i, hused, hdata⟩
    have hi : i ≠ node := by
      rintro rfl
      exact hne (Option.some.inj (hused.symm.trans hnode))
    exact ⟨i, (update_of_ne hi _ _).trans hused, hdata⟩

omit [NeZero hhSize.toNat] [DecidableEq K] in
theorem present_of_not_used {s s' : Pool K hhSize} {key : K} (hclean : s.Cleaned s')
    (hmiss : ∀ i, s'.used i ≠ some key) (k : K) : s'.Present k ↔ k ≠ key ∧ s.Present k := by
  rw [hclean.present, iff_and_self]
  rintro hk rfl
  obtain ⟨i, hused, -⟩ := (hclean.present k).mpr hk
  exact hmiss i hused

/-- A purge takes away the data of its key and of no other. -/
theorem Inv.cachePurge (hs : s.Inv hash chains) (key : K) :
    ∃ s' chains', s.cachePurge hash key = some s' ∧ s'.Inv hash chains' ∧
      ∀ k, s'.Present k ↔ k ≠ key ∧ s.Present k := by
  have hfound : ∀ {s₁ : Pool K hhSize} {chains₁ : Fin hhSize.toNat → List NodeId} {node : NodeId},
      s₁.Inv hash chains₁ → s.Cleaned s₁ → s₁.used node = some key →
      ∃ s' chains', s₁.purgeNode hash key node = some s' ∧ s'.Inv hash chains' ∧
        ∀ k, s'.Present k ↔ k ≠ key ∧ s.Present k := by
    intro s₁ chains₁ node hs₁ hclean hused
    obtain ⟨s', chains', heq, hs', hpresent⟩ := hs₁.purgeUsed hused
    refine ⟨s', chains', heq, hs', fun k => ?_⟩
    rw [hpresent, hclean.present]
  unfold Pool.cachePurge
  by_cases hc : s.hashChanging = true
  · obtain ⟨s₁, r₁, chains₁, heq₁, hs₁, hclean₁, -, hfound₁, hmiss₁⟩ :=
      hs.cacheFind key false ⟨_, rfl, .inl hc⟩
    simp only [hc, if_true, heq₁, Option.bind_eq_bind, Option.bind_some]
    cases r₁ with
    | some node => exact hfound hs₁ hclean₁ (hfound₁ node rfl).1
    | none =>
      obtain ⟨s₂, r₂, chains₂, heq₂, hs₂, hclean₂, hother₂, hfound₂, hmiss₂⟩ :=
        hs₁.cacheFind key true ⟨_, rfl, .inl (hclean₁.hashChanging.trans hc)⟩
      simp only [heq₂, Option.bind_some]
      cases r₂ with
      | some node => exact hfound hs₂ (hclean₁.trans hclean₂) (hfound₂ node rfl).1
      | none =>
        have hmiss := hs₂.not_used_of_misses hclean₂ hother₂ (hmiss₁ rfl) (hmiss₂ rfl)
        exact ⟨s₂, chains₂, rfl, hs₂, present_of_not_used (hclean₁.trans hclean₂) hmiss⟩
  · obtain ⟨s₁, r₁, chains₁, heq₁, hs₁, hclean₁, hfound₁, hmiss₁⟩ :=
      hs.cacheFindAutoChoseHash key
    rw [Pool.cacheFindAutoChoseHash, if_neg hc] at heq₁
    simp only [hc, heq₁, Option.bind_eq_bind, Option.bind_some]
    cases r₁ with
    | some node => exact hfound hs₁ hclean₁ (hfound₁ node rfl).1
    | none => exact ⟨s₁, chains₁, rfl, hs₁, present_of_not_used hclean₁ (hmiss₁ rfl)⟩

end Pool

end ISearch.CacheHash
