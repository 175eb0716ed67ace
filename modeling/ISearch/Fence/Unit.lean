import ISearch.Fence.Defs
import Mathlib.Data.Finset.Card

/-!
# The barrier unit keeps one queue per key

`BarrierUnit.queueOf` is what the unit is for: a queue of tasks for each barrier key. `Inv` is the
invariant of the lists, the hash table and the counter that makes it well defined, and the
contracts `taskNotify_spec` and `replyNotify_spec` state both entry points in terms of it.
-/

namespace ISearch.Fence

open Function

namespace TaskRequest

variable {cur : TaskRequest} {key : UInt64}

theorem keyed_iff : cur.keyed key = true ↔ cur.bypasses = false ∧ cur.barHash = key := by
  simp [keyed]

theorem keyed_self (hb : cur.bypasses = false) : cur.keyed cur.barHash = true :=
  keyed_iff.mpr ⟨hb, rfl⟩

theorem keyed_of_ne (hk : cur.barHash ≠ key) : cur.keyed key = false := by
  simp [keyed, hk]

theorem keyed_of_bypasses (hb : cur.bypasses = true) : cur.keyed key = false := by
  simp [keyed, hb]

end TaskRequest

namespace BarrierUnit

variable {u u' : BarrierUnit} {b c : Nat} {key : UInt64} {cur : TaskRequest}

/-- The barrier `b` exists and holds a task. -/
def Holds (u : BarrierUnit) (b : Nat) : Prop := b < u.nBars ∧ (u.bars b).queue ≠ []

instance (u : BarrierUnit) (b : Nat) : Decidable (u.Holds b) := inferInstanceAs (Decidable (_ ∧ _))

/-- The barriers that hold a task. -/
def holding (u : BarrierUnit) : Finset Nat :=
  (Finset.range u.nBars).filter fun b => (u.bars b).queue ≠ []

/-- The tasks accepted for a key and not yet completed, in arrival order. -/
def queueOf (u : BarrierUnit) (key : UInt64) : List TaskRequest :=
  match u.getBarrier key with
  | some b => (u.bars b).queue
  | none => []

/-- The list in which a barrier belongs. -/
def place (b : Barrier) : Head := if b.queue = [] then .freeList else .hashSlot (key2idx b.key)

structure Inv (u : BarrierUnit) : Prop where
  linked : u.lists.Linked
  mem_iff : ∀ {b i}, b ∈ u.lists i ↔ b < u.nBars ∧ i = place (u.bars b)
  key_inj : ∀ {b c}, u.Holds b → u.Holds c → (u.bars b).key = (u.bars c).key → b = c
  keyed : ∀ {b}, b < u.nBars → ∀ t ∈ (u.bars b).queue, t.keyed (u.bars b).key
  count_eq : u.count = u.holding.card

theorem mem_holding : b ∈ u.holding ↔ u.Holds b := by
  simp [holding, Holds]

theorem inv_init (max maxkeycount : Int) : Inv (init max maxkeycount) where
  linked := ⟨fun _ => List.nodup_nil, fun h => by simp [init] at h⟩
  mem_iff := by simp [init]
  key_inj h := absurd h.1 (by simp [init])
  keyed h := absurd h (by simp [init])
  count_eq := by simp [init, holding]

theorem Inv.mem_slot (h : Inv u) {i : Nat} :
    b ∈ u.lists (.hashSlot i) ↔ u.Holds b ∧ i = key2idx (u.bars b).key := by
  rw [h.mem_iff, Holds, place]
  split_ifs with hq
  · simp [hq]
  · simp [hq]

theorem Inv.mem_free (h : Inv u) :
    b ∈ u.lists .freeList ↔ b < u.nBars ∧ (u.bars b).queue = [] := by
  rw [h.mem_iff, place]
  split_ifs with hq <;> simp [hq]

theorem Inv.getBarrier_eq_some (h : Inv u) :
    u.getBarrier key = some b ↔ u.Holds b ∧ (u.bars b).key = key := by
  constructor
  · intro hb
    have hkey : (u.bars b).key = key := by simpa using List.find?_some hb
    exact ⟨(h.mem_slot.mp (List.mem_of_find?_eq_some hb)).1, hkey⟩
  · rintro ⟨hb, rfl⟩
    have hmem : b ∈ u.lists (.hashSlot (key2idx (u.bars b).key)) := h.mem_slot.mpr ⟨hb, rfl⟩
    obtain ⟨c, hc⟩ : ∃ c, u.getBarrier (u.bars b).key = some c :=
      Option.isSome_iff_exists.mp (List.find?_isSome.mpr ⟨b, hmem, by simp⟩)
    have hkey : (u.bars c).key = (u.bars b).key := by simpa using List.find?_some hc
    have hc' := (h.mem_slot.mp (List.mem_of_find?_eq_some hc)).1
    rw [hc, h.key_inj hc' hb hkey]

theorem Inv.getBarrier_eq_none (h : Inv u) :
    u.getBarrier key = none ↔ ∀ b, u.Holds b → (u.bars b).key ≠ key := by
  constructor
  · intro hn b hb hk
    rw [h.getBarrier_eq_some.mpr ⟨hb, hk⟩] at hn
    cases hn
  · intro hall
    refine Option.eq_none_iff_forall_ne_some.mpr fun b hb => ?_
    obtain ⟨hb, hk⟩ := h.getBarrier_eq_some.mp hb
    exact hall b hb hk

theorem Inv.queueOf_of_holds (h : Inv u) (hb : u.Holds b) :
    u.queueOf (u.bars b).key = (u.bars b).queue := by
  rw [queueOf, h.getBarrier_eq_some.mpr ⟨hb, rfl⟩]

theorem Inv.queueOf_eq_nil (h : Inv u) : u.queueOf key = [] ↔ u.getBarrier key = none := by
  rw [queueOf]
  cases hg : u.getBarrier key with
  | none => simp
  | some b => simpa using (h.getBarrier_eq_some.mp hg).1.2

theorem Inv.keyed_queueOf (h : Inv u) : ∀ t ∈ u.queueOf key, t.keyed key := by
  intro t ht
  rw [queueOf] at ht
  cases hg : u.getBarrier key with
  | none => simp [hg] at ht
  | some b =>
    obtain ⟨hb, hk⟩ := h.getBarrier_eq_some.mp hg
    rw [← hk]
    exact h.keyed hb.1 t (by simpa [hg] using ht)

/-- The unit `u'` is `u` with the content `B` in barrier `b`, relinked to its place. -/
structure Sets (u u' : BarrierUnit) (b : Nat) (B : Barrier) : Prop where
  bars : u'.bars = update u.bars b B
  lt_iff : ∀ c, c < u'.nBars ↔ c = b ∨ c < u.nBars
  linked : u'.lists.Linked
  mem_iff : ∀ {c i}, c ∈ u'.lists i ↔ c = b ∧ i = place B ∨ c ≠ b ∧ c ∈ u.lists i
  count : u'.count + (if u.Holds b then 1 else 0) = u.count + (if B.queue ≠ [] then 1 else 0)

namespace Sets

variable {B : Barrier}

theorem bars_self (hset : Sets u u' b B) : u'.bars b = B := by simp [hset.bars]

theorem bars_of_ne (hset : Sets u u' b B) (hc : c ≠ b) : u'.bars c = u.bars c := by
  simp [hset.bars, hc]

theorem holds_self (hset : Sets u u' b B) : u'.Holds b ↔ B.queue ≠ [] := by
  simp [Holds, hset.bars_self, hset.lt_iff]

theorem holds_of_ne (hset : Sets u u' b B) (hc : c ≠ b) : u'.Holds c ↔ u.Holds c := by
  simp [Holds, hset.bars_of_ne hc, hset.lt_iff, hc]

theorem card_holding (hset : Sets u u' b B) :
    u'.holding.card + (if u.Holds b then 1 else 0) =
      u.holding.card + if B.queue ≠ [] then 1 else 0 := by
  have herase : u'.holding.erase b = u.holding.erase b := by
    ext c
    by_cases hc : c = b
    · simp [hc]
    · simp [hc, mem_holding, hset.holds_of_ne hc]
  have hu : u.holding.card = (u.holding.erase b).card + if u.Holds b then 1 else 0 := by
    split_ifs with hb
    · exact (Finset.card_erase_add_one (mem_holding.mpr hb)).symm
    · rw [Finset.erase_eq_of_notMem (mt mem_holding.mp hb), Nat.add_zero]
  have hu' : u'.holding.card = (u'.holding.erase b).card + if B.queue ≠ [] then 1 else 0 := by
    split_ifs with hb
    · exact (Finset.card_erase_add_one (mem_holding.mpr (hset.holds_self.mpr hb))).symm
    · rw [Finset.erase_eq_of_notMem (mt mem_holding.mp (mt hset.holds_self.mp hb)), Nat.add_zero]
  rw [hu, hu', herase]
  omega

end Sets

theorem Inv.sets (h : Inv u) {B : Barrier} (hset : Sets u u' b B)
    (hfree : ∀ c ≠ b, u.Holds c → (u.bars c).key ≠ B.key)
    (hkeyed : ∀ t ∈ B.queue, t.keyed B.key) : Inv u' where
  linked := hset.linked
  mem_iff := by
    intro c i
    rw [hset.mem_iff, hset.lt_iff]
    by_cases hc : c = b
    · subst hc; simp [hset.bars_self]
    · simp [hc, hset.bars_of_ne hc, h.mem_iff]
  key_inj := by
    intro c d hc hd hkey
    by_cases hcb : c = b <;> by_cases hdb : d = b
    · rw [hcb, hdb]
    · subst hcb
      rw [hset.bars_self, hset.bars_of_ne hdb] at hkey
      exact absurd hkey.symm (hfree d hdb ((hset.holds_of_ne hdb).mp hd))
    · subst hdb
      rw [hset.bars_self, hset.bars_of_ne hcb] at hkey
      exact absurd hkey (hfree c hcb ((hset.holds_of_ne hcb).mp hc))
    · rw [hset.bars_of_ne hcb, hset.bars_of_ne hdb] at hkey
      exact h.key_inj ((hset.holds_of_ne hcb).mp hc) ((hset.holds_of_ne hdb).mp hd) hkey
  keyed := by
    intro c hc t ht
    by_cases hcb : c = b
    · subst hcb
      rw [hset.bars_self] at ht ⊢
      exact hkeyed t ht
    · rw [hset.bars_of_ne hcb] at ht ⊢
      exact h.keyed (((hset.lt_iff c).mp hc).resolve_left hcb) t ht
  count_eq := by
    have h1 := hset.card_holding
    have h2 := hset.count
    rw [h.count_eq] at h2
    split_ifs at h1 h2 <;> omega

/-- The queues after such a change: the one for the key of `B` is the queue of `B`. -/
theorem Inv.queueOf_sets (h : Inv u) {B : Barrier} (hset : Sets u u' b B) (h' : Inv u')
    (hfree : ∀ c ≠ b, u.Holds c → (u.bars c).key ≠ B.key)
    (hsame : u.Holds b → (u.bars b).key = B.key) :
    u'.queueOf = update u.queueOf B.key B.queue := by
  funext k
  by_cases hk : k = B.key
  · subst hk
    rw [update_self]
    by_cases hq : B.queue = []
    · rw [hq, h'.queueOf_eq_nil, h'.getBarrier_eq_none]
      intro c hc
      by_cases hcb : c = b
      · subst hcb
        exact absurd hq (hset.holds_self.mp hc)
      · rw [hset.bars_of_ne hcb]
        exact hfree c hcb ((hset.holds_of_ne hcb).mp hc)
    · have hb := h'.queueOf_of_holds (hset.holds_self.mpr hq)
      rwa [hset.bars_self] at hb
  · rw [update_of_ne hk]
    cases hg : u.getBarrier k with
    | none =>
      rw [h.queueOf_eq_nil.mpr hg, h'.queueOf_eq_nil, h'.getBarrier_eq_none]
      intro c hc hck
      by_cases hcb : c = b
      · subst hcb
        exact hk (hck.symm.trans (congrArg Barrier.key hset.bars_self))
      · rw [hset.bars_of_ne hcb] at hck
        exact h.getBarrier_eq_none.mp hg c ((hset.holds_of_ne hcb).mp hc) hck
    | some c =>
      obtain ⟨hc, rfl⟩ := h.getBarrier_eq_some.mp hg
      have hcb : c ≠ b := by
        rintro rfl
        exact hk (hsame hc)
      have hq := h'.queueOf_of_holds ((hset.holds_of_ne hcb).mpr hc)
      rw [hset.bars_of_ne hcb] at hq
      rw [hq, h.queueOf_of_holds hc]

/-! ## The entry points -/

theorem Inv.others_differ (h : Inv u) (hb : u.Holds b) :
    ∀ c ≠ b, u.Holds c → (u.bars c).key ≠ (u.bars b).key :=
  fun _ hne hc hk => hne (h.key_inj hc hb hk)

/-- A barrier that holds a task before and after stays where it is. -/
theorem Inv.sets_inPlace (h : Inv u) (hb : u.Holds b) {queue : List TaskRequest}
    (hq : queue ≠ []) (hbars : u'.bars = update u.bars b ⟨(u.bars b).key, queue⟩)
    (hn : u'.nBars = u.nBars) (hl : u'.lists = u.lists) (hc : u'.count = u.count) :
    Sets u u' b ⟨(u.bars b).key, queue⟩ where
  bars := hbars
  lt_iff c := by
    rw [hn]
    exact ⟨.inr, fun hc => hc.elim (fun hc => hc ▸ hb.1) id⟩
  linked := hl ▸ h.linked
  mem_iff := by
    intro c i
    rw [hl]
    by_cases hcb : c = b
    · subst hcb; simp [h.mem_iff, place, hq, hb.1, hb.2]
    · simp [hcb]
  count := by simp [hc, hb, hq]

/-- What `task_notify` does. -/
inductive Arrival (u : BarrierUnit) (cur : TaskRequest) (u' : BarrierUnit) : List Action → Prop
  | bypass (hb : cur.bypasses = true) (hu : u' = u) : Arrival u cur u' [.chainRequest cur]
  | rejected (hb : cur.bypasses = false) (hu : u' = u) (msg : String) :
    Arrival u cur u' [.replyNotify cur (some (-ecServerBusy, msg))]
  | forwarded (hb : cur.bypasses = false) (hinv : Inv u') (hq : u.queueOf cur.barHash = [])
      (hq' : u'.queueOf = update u.queueOf cur.barHash [cur]) :
    Arrival u cur u' [.chainRequest cur]
  | queued (hb : cur.bypasses = false) (hinv : Inv u') (hq : u.queueOf cur.barHash ≠ [])
      (hq' : u'.queueOf = update u.queueOf cur.barHash (u.queueOf cur.barHash ++ [cur])) :
    Arrival u cur u' []

theorem Inv.sets_open (h : Inv u) (key : UInt64) (cur : TaskRequest) :
    ¬ u.Holds u.takeBarrier.2 ∧
      Sets u (u.takeBarrier.1.openBarrier u.takeBarrier.2 key cur) u.takeBarrier.2 ⟨key, [cur]⟩ := by
  cases hf : u.lists .freeList with
  | nil =>
    have htake : u.takeBarrier = ({ u.setBar u.nBars {} with nBars := u.nBars + 1 }, u.nBars) := by
      simp [takeBarrier, hf]
    have hn : ¬ u.Holds u.nBars := fun hh => lt_irrefl _ hh.1
    rw [htake]
    refine ⟨hn, ?_, fun c => ?_, h.linked.listMoveTail _ _, h.linked.mem_listMoveTail, ?_⟩
    · funext c
      by_cases hc : c = u.nBars
      · subst hc; simp [openBarrier, push, setBar]
      · simp [openBarrier, push, setBar, hc]
    · simp only [openBarrier, push, setBar]
      omega
    · simp [openBarrier, push, setBar, hn]
  | cons bar rest =>
    have htake : u.takeBarrier = (u, bar) := by simp [takeBarrier, hf]
    obtain ⟨hlt, hq⟩ := h.mem_free.mp (hf ▸ List.mem_cons_self : bar ∈ u.lists .freeList)
    have hn : ¬ u.Holds bar := fun hh => hh.2 hq
    rw [htake]
    refine ⟨hn, ?_, fun c => ⟨.inr, ?_⟩, h.linked.listMoveTail _ _, h.linked.mem_listMoveTail, ?_⟩
    · funext c
      by_cases hc : c = bar
      · subst hc; simp [openBarrier, push, setBar, hq]
      · simp [openBarrier, push, setBar, hc]
    · rintro (rfl | hc)
      · exact hlt
      · exact hc
    · simp [openBarrier, push, setBar, hn]

theorem taskNotify_spec (h : Inv u) (cur : TaskRequest) :
    Arrival u cur (u.taskNotify cur).1 (u.taskNotify cur).2 := by
  unfold taskNotify
  cases hb : cur.bypasses with
  | true => exact .bypass hb rfl
  | false =>
    have hcur : ∀ t ∈ [cur], t.keyed cur.barHash := by simp [TaskRequest.keyed_iff, hb]
    simp only [Bool.false_eq_true, if_false]
    cases hg : u.getBarrier cur.barHash with
    | some bar =>
      obtain ⟨hbar, hkey⟩ := h.getBarrier_eq_some.mp hg
      dsimp only
      split_ifs with hroom
      · have hset : Sets u (u.enqueue bar cur) bar
            ⟨(u.bars bar).key, (u.bars bar).queue ++ [cur]⟩ :=
          h.sets_inPlace hbar (by simp) rfl rfl rfl rfl
        have hinv := h.sets hset (h.others_differ hbar) fun t ht =>
          (List.mem_append.mp ht).elim (h.keyed hbar.1 t) (hkey ▸ hcur t)
        have hq := h.queueOf_of_holds hbar
        rw [hkey] at hq
        refine .queued hb hinv (hq ▸ hbar.2) ?_
        rw [h.queueOf_sets hset hinv (h.others_differ hbar) fun _ => rfl, hq, hkey]
      · exact .rejected hb rfl _
    | none =>
      dsimp only
      split_ifs with hmax
      · exact .rejected hb rfl _
      · have hfree := h.getBarrier_eq_none.mp hg
        obtain ⟨hn, hset⟩ := h.sets_open cur.barHash cur
        have hinv := h.sets hset (fun c _ hc => hfree c hc) hcur
        refine .forwarded hb hinv (h.queueOf_eq_nil.mpr hg) ?_
        exact h.queueOf_sets hset hinv (fun c _ hc => hfree c hc) fun hh => absurd hh hn

/-- What `reply_notify` does for the task at the front of its queue. -/
theorem replyNotify_spec (h : Inv u) (hb : cur.bypasses = false) {rest : List TaskRequest}
    (hq : u.queueOf cur.barHash = cur :: rest) :
    Inv (u.replyNotify cur).1 ∧
      (u.replyNotify cur).1.queueOf = update u.queueOf cur.barHash rest ∧
      (u.replyNotify cur).2 = (rest.head?.map Action.queueRequest).toList ++
        [.replyNotify cur none] := by
  obtain ⟨bar, hg⟩ : ∃ bar, u.getBarrier cur.barHash = some bar := by
    refine Option.ne_none_iff_exists'.mp fun hn => ?_
    rw [h.queueOf_eq_nil.mpr hn] at hq
    cases hq
  obtain ⟨hbar, hkey⟩ := h.getBarrier_eq_some.mp hg
  have hqb : (u.bars bar).queue = cur :: rest := by rw [← h.queueOf_of_holds hbar, hkey, hq]
  have hkeyed : ∀ t ∈ rest, t.keyed (u.bars bar).key := fun t ht =>
    h.keyed hbar.1 t (hqb ▸ List.mem_cons_of_mem _ ht)
  have hdeq : (u.dequeue bar).bars = update u.bars bar ⟨(u.bars bar).key, rest⟩ := by
    simp [dequeue, pop, setBar, hqb]
  unfold replyNotify
  simp only [hb, Bool.false_eq_true, if_false, hg, hqb, List.head?_cons, if_true, hdeq,
    update_self]
  cases rest with
  | nil =>
    have hset : Sets u ((u.dequeue bar).attachFreeBarrier bar) bar ⟨(u.bars bar).key, []⟩ := by
      refine ⟨hdeq, fun c => ⟨.inr, ?_⟩, h.linked.listMove _ _, h.linked.mem_listMove, ?_⟩
      · exact fun hc => hc.elim (fun hc => hc ▸ hbar.1) id
      · simp [attachFreeBarrier, dequeue, pop, setBar, hbar]
    have hinv := h.sets hset (h.others_differ hbar) hkeyed
    refine ⟨hinv, ?_, rfl⟩
    simpa only [List.head?_nil, hkey] using
      h.queueOf_sets hset hinv (h.others_differ hbar) fun _ => rfl
  | cons next rest =>
    have hset : Sets u (u.dequeue bar) bar ⟨(u.bars bar).key, next :: rest⟩ :=
      h.sets_inPlace hbar (by simp) hdeq rfl rfl rfl
    have hinv := h.sets hset (h.others_differ hbar) hkeyed
    refine ⟨hinv, ?_, rfl⟩
    simpa only [List.head?_cons, hkey] using
      h.queueOf_sets hset hinv (h.others_differ hbar) fun _ => rfl

theorem replyNotify_of_bypasses (hb : cur.bypasses = true) :
    u.replyNotify cur = (u, [.replyNotify cur none]) := by
  simp [replyNotify, hb]

end BarrierUnit

end ISearch.Fence
