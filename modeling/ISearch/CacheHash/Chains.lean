import ISearch.CacheHash.Defs
import Mathlib.Algebra.BigOperators.Fin

/-!
# The chains of the hash index

`HashT.Linked h chains` says that the memory holds exactly the chains `chains`, that no node is in
two places, and that the counters count them. `insert2Hash` and `removeFromHashBase` are described
by what they do to `chains`.
-/

namespace ISearch.CacheHash

open Function (update_self update_of_ne update_eq_self update)
open scoped List

variable {hhSize : UInt32}

/-- Replacing one term of a sum. -/
theorem sum_update_add {α ι : Type} [Fintype ι] [DecidableEq ι] (g : α → Nat) (f : ι → α) (i : ι)
    (a : α) : ∑ j, g (update f i a j) + g (f i) = ∑ j, g (f j) + g a := by
  rw [← Finset.add_sum_erase _ _ (Finset.mem_univ i), ← Finset.add_sum_erase _ (fun j => g (f j))
    (Finset.mem_univ i), update_self]
  have hrest : ∑ j ∈ Finset.univ.erase i, g (update f i a j) =
      ∑ j ∈ Finset.univ.erase i, g (f j) := by
    apply Finset.sum_congr rfl
    intro j hj
    rw [update_of_ne (Finset.ne_of_mem_erase hj)]
  omega

theorem ofNat_eq_of_add_eq {c c' a b : Nat} (h : c' + a = c + b) :
    UInt32.ofNat c' = UInt32.ofNat c + UInt32.ofNat b - UInt32.ofNat a := by
  have hcast : UInt32.ofNat c' + UInt32.ofNat a = UInt32.ofNat c + UInt32.ofNat b := by
    rw [← UInt32.ofNat_add, ← UInt32.ofNat_add, h]
  rw [← hcast, UInt32.add_sub_cancel]

theorem sub_one_eq (c d : UInt32) : c - 1 = c + d - (d + UInt32.ofNat 1) := by
  rw [UInt32.eq_sub_iff_add_eq, UInt32.add_comm d, ← UInt32.add_assoc]
  exact congrArg (· + d) (UInt32.sub_add_cancel c 1)

/-- Distinct valid node ids are fewer than `maxNodes`. -/
theorem length_lt_maxNodes {l : List NodeId} (hnodup : l.Nodup) (hl : invalidNodeId ∉ l) :
    l.length < HashT.maxNodes := by
  have hnodup' : ((invalidNodeId :: l).map UInt32.toNat).Nodup :=
    (List.nodup_cons.mpr ⟨hl, hnodup⟩).map fun _ _ => UInt32.toNat_inj.mp
  have hsub : (invalidNodeId :: l).map UInt32.toNat ⊆ List.range HashT.maxNodes := by
    intro x hx
    obtain ⟨a, -, rfl⟩ := List.mem_map.mp hx
    exact List.mem_range.mpr a.toNat_lt
  have hle := (hnodup'.subperm hsub).length_le
  rw [List.length_map, List.length_cons, List.length_range] at hle
  omega

namespace HashT

structure Linked (h : HashT hhSize) (chains : Fin hhSize.toNat → List NodeId) : Prop where
  chain : ∀ b, IsChain h.nextNodeId invalidNodeId (h.hhBuckets b) (chains b)
  nodup : ∀ b, (chains b).Nodup
  disjoint : ∀ {b b' i}, i ∈ chains b → i ∈ chains b' → b = b'
  index : ∀ {b i}, i ∈ chains b → h.nodeIndex i = true
  free : h.hhFree = UInt32.ofNat (∑ b, if chains b = [] then 1 else 0)
  node : h.hhNode = UInt32.ofNat (∑ b, (chains b).length)

variable {h : HashT hhSize} {chains : Fin hhSize.toNat → List NodeId}

theorem Linked.invalid_notMem (hl : h.Linked chains) (b : Fin hhSize.toNat) :
    invalidNodeId ∉ chains b := (hl.chain b).nil_notMem

/-- One chain replaced, by a chain of its own and of new nodes. -/
theorem Linked.replace (hl : h.Linked chains) {h' : HashT hhSize} {b : Fin hhSize.toNat}
    {l : List NodeId} (hchain : IsChain h'.nextNodeId invalidNodeId (h'.hhBuckets b) l)
    (hbuckets : ∀ b' ≠ b, h'.hhBuckets b' = h.hhBuckets b')
    (hnext : ∀ b' ≠ b, ∀ i ∈ chains b', h'.nextNodeId i = h.nextNodeId i)
    (hindex : h'.nodeIndex = h.nodeIndex) (hnodup : l.Nodup)
    (hmem : ∀ i ∈ l, i ∈ chains b ∨ h.nodeIndex i = true ∧ ∀ b', i ∉ chains b')
    (hfree : h'.hhFree = h.hhFree + UInt32.ofNat (if l = [] then 1 else 0) -
      UInt32.ofNat (if chains b = [] then 1 else 0))
    (hnode : h'.hhNode = h.hhNode + UInt32.ofNat l.length - UInt32.ofNat (chains b).length) :
    h'.Linked (update chains b l) := by
  have hcases : ∀ {b' i}, i ∈ update chains b l b' →
      b' = b ∧ i ∈ l ∨ b' ≠ b ∧ i ∈ chains b' := by
    intro b' i hi
    by_cases hb : b' = b
    · subst hb
      rw [update_self] at hi
      exact .inl ⟨rfl, hi⟩
    · rw [update_of_ne hb] at hi
      exact .inr ⟨hb, hi⟩
  have hold : ∀ {b' i}, i ∈ l → i ∈ chains b' → b' = b := by
    intro b' i hi hi'
    rcases hmem i hi with hb | ⟨-, hnew⟩
    · exact hl.disjoint hi' hb
    · exact absurd hi' (hnew b')
  refine ⟨?_, ?_, ?_, ?_, ?_, ?_⟩
  · intro b'
    by_cases hb : b' = b
    · subst hb
      rw [update_self]
      exact hchain
    · rw [update_of_ne hb, hbuckets b' hb]
      exact (hl.chain b').congr (hnext b' hb)
  · intro b'
    by_cases hb : b' = b
    · subst hb
      rw [update_self]
      exact hnodup
    · rw [update_of_ne hb]
      exact hl.nodup b'
  · intro b₁ b₂ i h₁ h₂
    rcases hcases h₁ with ⟨hb₁, hi₁⟩ | ⟨-, hi₁⟩ <;> rcases hcases h₂ with ⟨hb₂, hi₂⟩ | ⟨-, hi₂⟩
    · rw [hb₁, hb₂]
    · rw [hb₁, hold hi₁ hi₂]
    · rw [hb₂, hold hi₂ hi₁]
    · exact hl.disjoint hi₁ hi₂
  · intro b' i hi
    rw [hindex]
    rcases hcases hi with ⟨-, hi⟩ | ⟨-, hi⟩
    · rcases hmem i hi with hb | ⟨hidx, -⟩
      · exact hl.index hb
      · exact hidx
    · exact hl.index hi
  · rw [hfree, hl.free]
    exact (ofNat_eq_of_add_eq (sum_update_add (fun l => if l = [] then 1 else 0) chains b l)).symm
  · rw [hnode, hl.node]
    exact (ofNat_eq_of_add_eq (sum_update_add List.length chains b l)).symm

theorem search_head {head : NodeId} {l : List NodeId}
    (hc : IsChain h.nextNodeId invalidNodeId head l) (hidx : ∀ i ∈ l, h.nodeIndex i = true) :
    h.search head = l.head? := by
  cases l with
  | nil =>
    have hhead : head = invalidNodeId := hc
    rw [search, if_pos hhead, List.head?_nil]
  | cons a l =>
    obtain ⟨rfl, hne, -⟩ := hc
    rw [search, if_neg hne, if_pos (hidx _ List.mem_cons_self), List.head?_cons]

theorem Linked.insert2Hash (hl : h.Linked chains) {b : Fin hhSize.toNat} {node : NodeId}
    (hne : node ≠ invalidNodeId) (hidx : h.nodeIndex node = true) (hnew : ∀ b, node ∉ chains b) :
    (h.insert2Hash b node).Linked (update chains b (node :: chains b)) := by
  apply hl.replace
  · simp only [HashT.insert2Hash, update_self]
    exact (hl.chain b).push (hnew b) hne
  · intro b' hb
    exact update_of_ne hb _ _
  · intro b' hb i hi
    exact update_of_ne (ne_of_mem_of_not_mem hi (hnew b')) _ _
  · rfl
  · exact List.nodup_cons.mpr ⟨hnew b, hl.nodup b⟩
  · intro i hi
    rcases List.mem_cons.mp hi with rfl | hi
    · exact .inr ⟨hidx, hnew⟩
    · exact .inl hi
  · by_cases hnil : chains b = []
    · simp [HashT.insert2Hash, (hl.chain b).head_eq_nil, hnil]
    · simp [HashT.insert2Hash, (hl.chain b).head_eq_nil, hnil]
  · rw [HashT.insert2Hash, List.length_cons, UInt32.ofNat_add, UInt32.add_comm (UInt32.ofNat _),
      ← UInt32.add_assoc, UInt32.add_sub_cancel]
    rfl

theorem mem_update_cons {node i : NodeId} {b b' : Fin hhSize.toNat} :
    i ∈ update chains b (node :: chains b) b' ↔ i = node ∧ b' = b ∨ i ∈ chains b' := by
  by_cases hb : b' = b
  · subst hb
    rw [update_self, List.mem_cons]
    simp
  · rw [update_of_ne hb]
    simp [hb]

/-- The successor of a node outside of all chains does not matter. -/
theorem Linked.reset (hl : h.Linked chains) {node : NodeId} (hnode : ∀ b, node ∉ chains b) :
    ({ h with nextNodeId := update h.nextNodeId node invalidNodeId }).Linked chains :=
  ⟨fun b => (hl.chain b).update (hnode b), hl.nodup, hl.disjoint, hl.index, hl.free, hl.node⟩

/-- A node outside of all chains is entered in the node index. -/
theorem Linked.register (hl : h.Linked chains) {node : NodeId} (hnode : ∀ b, node ∉ chains b) :
    ({ h with
        nextNodeId := update h.nextNodeId node invalidNodeId
        nodeIndex := update h.nodeIndex node true }).Linked chains := by
  refine { hl.reset hnode with index := fun {b i} hi => ?_ }
  exact (update_of_ne (ne_of_mem_of_not_mem hi (hnode b)) _ _).trans (hl.index hi)

/-! ## `removeFromHashBase` -/

theorem removeLoop_of_notMem {node prev : NodeId} {l : List NodeId} {fuel : Nat}
    (hc : IsChain h.nextNodeId invalidNodeId (h.nextNodeId prev) l)
    (hidx : ∀ i ∈ l, h.nodeIndex i = true) (hnode : node ∉ l) (hfuel : l.length < fuel) :
    h.removeLoop node fuel prev l.head? = some none := by
  induction l generalizing prev fuel with
  | nil =>
    obtain ⟨fuel, rfl⟩ := Nat.exists_eq_add_one_of_ne_zero (Nat.ne_of_gt hfuel)
    rfl
  | cons a l ih =>
    obtain ⟨fuel, rfl⟩ := Nat.exists_eq_add_one_of_ne_zero (Nat.ne_of_gt (Nat.zero_lt_of_lt hfuel))
    obtain ⟨-, -, hc⟩ := hc
    have hidx' : ∀ i ∈ l, h.nodeIndex i = true := fun i hi => hidx i (List.mem_cons_of_mem _ hi)
    rw [List.head?_cons, removeLoop, if_neg (List.ne_of_not_mem_cons hnode).symm,
      search_head hc hidx']
    exact ih hc hidx' (List.not_mem_of_not_mem_cons hnode) (Nat.lt_of_succ_lt_succ hfuel)

theorem removeLoop_of_mem {node prev : NodeId} {l : List NodeId} {fuel : Nat}
    (hc : IsChain h.nextNodeId invalidNodeId (h.nextNodeId prev) l)
    (hidx : ∀ i ∈ l, h.nodeIndex i = true) (hnode : node ∈ l) (hfuel : l.length < fuel) :
    ∃ pre p post, prev :: l = pre ++ p :: node :: post ∧
      h.removeLoop node fuel prev l.head? = some (some (p, node)) := by
  induction l generalizing prev fuel with
  | nil => exact absurd hnode List.not_mem_nil
  | cons a l ih =>
    obtain ⟨fuel, rfl⟩ := Nat.exists_eq_add_one_of_ne_zero (Nat.ne_of_gt (Nat.zero_lt_of_lt hfuel))
    obtain ⟨-, -, hc⟩ := hc
    have hidx' : ∀ i ∈ l, h.nodeIndex i = true := fun i hi => hidx i (List.mem_cons_of_mem _ hi)
    by_cases ha : a = node
    · subst ha
      exact ⟨[], prev, l, rfl, by rw [List.head?_cons, removeLoop, if_pos rfl]⟩
    · have hmem : node ∈ l := List.mem_of_ne_of_mem (Ne.symm ha) hnode
      obtain ⟨pre, p, post, heq, hloop⟩ := ih hc hidx' hmem (Nat.lt_of_succ_lt_succ hfuel)
      refine ⟨prev :: pre, p, post, by rw [heq, List.cons_append], ?_⟩
      rw [List.head?_cons, removeLoop, if_neg ha, search_head hc hidx']
      exact hloop

theorem Linked.removeHead (hl : h.Linked chains) {b : Fin hhSize.toNat} {a : NodeId}
    {l : List NodeId} (hb : chains b = a :: l) :
    (h.removeHead b a).Linked (update chains b l) := by
  have hchain := hl.chain b
  have hnodup := hl.nodup b
  rw [hb] at hchain hnodup
  obtain ⟨-, -, htail⟩ := hchain
  apply hl.replace
  · simp only [HashT.removeHead, update_self]
    exact htail
  · exact fun b' hb' => update_of_ne hb' _ _
  · exact fun _ _ _ _ => rfl
  · rfl
  · exact (List.nodup_cons.mp hnodup).2
  · intro i hi
    rw [hb]
    exact .inl (List.mem_cons_of_mem _ hi)
  · by_cases hnil : l = []
    · simp [HashT.removeHead, htail.head_eq_nil, hb, hnil]
    · simp [HashT.removeHead, htail.head_eq_nil, hb, hnil]
  · rw [hb, List.length_cons, UInt32.ofNat_add]
    exact sub_one_eq _ _

theorem Linked.removeNext (hl : h.Linked chains) {b : Fin hhSize.toNat} {p x : NodeId}
    {pre post : List NodeId} (hb : chains b = pre ++ p :: x :: post) :
    (h.removeNext p x).Linked (update chains b (pre ++ p :: post)) := by
  have hchain := hl.chain b
  have hnodup := hl.nodup b
  rw [hb] at hchain hnodup
  have hsub : pre ++ p :: post <+ pre ++ p :: x :: post :=
    (List.Sublist.refl pre).append ((List.sublist_cons_self x post).cons_cons p)
  apply hl.replace
  · exact hchain.unlink hnodup
  · exact fun _ _ => rfl
  · intro b' hb' i hi
    apply update_of_ne
    rintro rfl
    exact hb' (hl.disjoint hi (by simp [hb]))
  · rfl
  · exact hnodup.sublist hsub
  · intro i hi
    rw [hb]
    exact .inl (hsub.subset hi)
  · simp [HashT.removeNext, hb]
  · have hlen : (pre ++ p :: x :: post).length = (pre ++ p :: post).length + 1 := by simp; omega
    rw [hb, hlen, UInt32.ofNat_add]
    exact sub_one_eq _ _

/-- The node is taken out of the chain of the slot, if it is there. -/
theorem Linked.removeFromHashBase (hl : h.Linked chains) (b : Fin hhSize.toNat) (node : NodeId) :
    ∃ r h', h.removeFromHashBase b node = some (r, h') ∧ h'.nodeIndex = h.nodeIndex ∧
      h'.Linked (update chains b ((chains b).erase node)) := by
  have hchain := hl.chain b
  have hnodup := hl.nodup b
  have hlen := length_lt_maxNodes hnodup (hl.invalid_notMem b)
  unfold HashT.removeFromHashBase
  cases hb : chains b with
  | nil =>
    refine ⟨0, h, if_pos (hchain.head_eq_nil.mpr hb), rfl, ?_⟩
    rw [List.erase_nil, ← hb, update_eq_self]
    exact hl
  | cons a l =>
    rw [hb] at hchain hnodup hlen
    obtain ⟨hhead, hne, htail⟩ := hchain
    have hidx : ∀ i ∈ a :: l, h.nodeIndex i = true := fun i hi => hl.index (hb ▸ hi)
    have hidx' : ∀ i ∈ l, h.nodeIndex i = true := fun i hi => hidx i (List.mem_cons_of_mem _ hi)
    have hfuel : l.length < maxNodes := Nat.lt_of_succ_lt hlen
    have hcons : IsChain h.nextNodeId invalidNodeId a (a :: l) := ⟨rfl, hne, htail⟩
    have hsearch : h.search a = some a := search_head hcons hidx
    rw [hhead, if_neg hne]
    by_cases ha : a = node
    · subst ha
      refine ⟨0, h.removeHead b a, if_pos rfl, rfl, ?_⟩
      rw [List.erase_cons_head]
      exact hl.removeHead hb
    rw [if_neg ha, hsearch, Option.bind_eq_bind, Option.bind_some, search_head htail hidx']
    by_cases hmem : node ∈ l
    · obtain ⟨pre, p, post, heq, hloop⟩ := removeLoop_of_mem htail hidx' hmem hfuel
      refine ⟨0, h.removeNext p node, by rw [hloop]; rfl, rfl, ?_⟩
      have herase : (a :: l).erase node = pre ++ p :: post := by
        rw [heq] at hnodup ⊢
        have hnot : node ∉ pre ++ [p] := by
          rw [List.append_cons, List.nodup_append] at hnodup
          exact fun hmem => hnodup.2.2 node hmem node List.mem_cons_self rfl
        rw [List.append_cons, List.erase_append_right _ hnot, List.erase_cons_head,
          ← List.append_cons]
      rw [herase]
      exact hl.removeNext (hb.trans heq)
    · refine ⟨-1, h, by rw [removeLoop_of_notMem htail hidx' hmem hfuel]; rfl, rfl, ?_⟩
      rw [List.erase_of_not_mem (List.not_mem_cons_of_ne_of_not_mem (Ne.symm ha) hmem), ← hb,
        update_eq_self]
      exact hl

end HashT

end ISearch.CacheHash
