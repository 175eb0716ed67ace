import ISearch.Fence.Unit
import ISearch.Lib.Run

/-!
# Per-key serialisation

The unit between its callers and the dispatcher bound to its output. Arrivals may happen at any
time, a completion when the dispatcher has the task, and a timer tick while the output queue is
not empty. `run_serialised` states what holds after every such run.
-/

namespace ISearch.Fence

open List

/-- The unit, the queue of its `RequestOutput`, the tasks the dispatcher is working on, and the
history of the calls. -/
structure System where
  unit : BarrierUnit
  queue : List TaskRequest
  running : List TaskRequest
  accepted : List TaskRequest
  rejected : List TaskRequest
  forwarded : List TaskRequest
  completed : List TaskRequest
  replied : List (TaskRequest × Option (Int × String))

inductive Event where
  | taskNotify (cur : TaskRequest)
  | replyNotify (cur : TaskRequest)
  | timerNotify

namespace System

open TaskRequest (keyed_self keyed_of_ne keyed_of_bypasses)

def init (max maxkeycount : Int) : System where
  unit := .init max maxkeycount
  queue := []
  running := []
  accepted := []
  rejected := []
  forwarded := []
  completed := []
  replied := []

/-- `proc->task_notify`. -/
def forward (s : System) (p : TaskRequest) : System :=
  { s with forwarded := s.forwarded ++ [p], running := s.running ++ [p] }

def perform (s : System) : Action → System
  | .chainRequest p => s.forward p
  | .queueRequest p => { s with queue := s.queue ++ [p] }
  | .replyNotify cur error => { s with replied := s.replied ++ [(cur, error)] }

def Action.isReply : Action → Bool
  | .replyNotify .. => true
  | _ => false

/-- A task arrives; it is accepted unless the unit replies to it at once. -/
def arrive (s : System) (cur : TaskRequest) : System :=
  let r := s.unit.taskNotify cur
  let s' := r.2.foldl perform { s with unit := r.1 }
  if r.2.any Action.isReply then { s' with rejected := s.rejected ++ [cur] }
  else { s' with accepted := s.accepted ++ [cur] }

/-- The dispatcher replies to a task it was working on. -/
def complete (s : System) (cur : TaskRequest) : System :=
  let r := s.unit.replyNotify cur
  r.2.foldl perform { s with
    unit := r.1, running := s.running.erase cur, completed := s.completed ++ [cur] }

def step (s : System) : Event → Option System
  | .taskNotify cur => some (s.arrive cur)
  | .replyNotify cur => if cur ∈ s.running then some (s.complete cur) else none
  | .timerNotify =>
    match s.queue with
    | [] => none
    | p :: rest => some ({ s with queue := rest }.forward p)

/-- What the unit guarantees to its surroundings. -/
structure Serialised (s : System) : Prop where
  one_per_key : ∀ key, ((s.running ++ s.queue).filter (·.keyed key)).length ≤ 1
  in_order : ∀ key, s.accepted.filter (·.keyed key) =
    s.forwarded.filter (·.keyed key) ++ s.queue.filter (·.keyed key) ++ (s.unit.queueOf key).tail
  bypassed : s.accepted.filter (·.bypasses) = s.forwarded.filter (·.bypasses)
  progress : s.running = [] → s.queue = [] → ∀ key, s.unit.queueOf key = []
  completed_count : ∀ t, s.forwarded.count t = s.completed.count t + s.running.count t
  replied_count : ∀ t, (s.replied.map Prod.fst).count t = s.rejected.count t + s.completed.count t
  placed : ∀ b, b < s.unit.nBars → ∃! l, b ∈ s.unit.lists l
  linked_once : ∀ l, (s.unit.lists l).Nodup
  slot_lt : ∀ b i, b ∈ s.unit.lists (.hashSlot i) → i < barrierHashMax
  count_eq : s.unit.count = s.unit.holding.card

structure Inv (s : System) : Prop where
  unit : s.unit.Inv
  outstanding : ∀ key, (s.running ++ s.queue).filter (·.keyed key) = (s.unit.queueOf key).take 1
  accepted_eq : ∀ key, s.accepted.filter (·.keyed key) =
    s.completed.filter (·.keyed key) ++ s.unit.queueOf key
  forwarded_eq : ∀ key, s.forwarded.filter (·.keyed key) =
    s.completed.filter (·.keyed key) ++ s.running.filter (·.keyed key)
  bypassed : s.accepted.filter (·.bypasses) = s.forwarded.filter (·.bypasses)
  queue_keyed : ∀ t ∈ s.queue, t.bypasses = false
  completed_count : ∀ t, s.forwarded.count t = s.completed.count t + s.running.count t
  replied_count : ∀ t, (s.replied.map Prod.fst).count t = s.rejected.count t + s.completed.count t

variable {s s' : System} {cur : TaskRequest} {key : UInt64}

theorem inv_init (max maxkeycount : Int) : Inv (init max maxkeycount) := by
  have hq : ∀ key, (BarrierUnit.init max maxkeycount).queueOf key = [] := fun _ => rfl
  refine ⟨BarrierUnit.inv_init max maxkeycount, ?_, ?_, ?_, ?_, ?_, ?_, ?_⟩ <;> simp [init, hq]

theorem Inv.forward_count (h : Inv s) (t : TaskRequest) :
    (s.forwarded ++ [cur]).count t = s.completed.count t + (s.running ++ [cur]).count t := by
  rw [count_append, count_append, h.completed_count t, Nat.add_assoc]

theorem Inv.arrive (h : Inv s) (cur : TaskRequest) : Inv (s.arrive cur) := by
  have hspec := BarrierUnit.taskNotify_spec h.unit cur
  cases hr : s.unit.taskNotify cur with
  | mk u' acts =>
  rw [hr] at hspec
  simp only [System.arrive, hr]
  cases hspec with
  | bypass hb hu =>
    subst hu
    have hk : ∀ key, cur.keyed key = false := fun _ => keyed_of_bypasses hb
    refine ⟨h.unit, fun key => ?_, fun key => ?_, fun key => ?_, ?_, h.queue_keyed, fun t => ?_,
      h.replied_count⟩
    · simpa [perform, Action.isReply, forward, hk] using h.outstanding key
    · simpa [perform, Action.isReply, forward, hk] using h.accepted_eq key
    · simpa [perform, Action.isReply, forward, hk] using h.forwarded_eq key
    · simpa [perform, Action.isReply, forward, hb] using h.bypassed
    · exact h.forward_count t
  | rejected hb hu msg =>
    subst hu
    refine ⟨h.unit, h.outstanding, h.accepted_eq, h.forwarded_eq, h.bypassed, h.queue_keyed,
      h.completed_count, fun t => ?_⟩
    have := h.replied_count t
    simp only [perform, Action.isReply, foldl_cons, foldl_nil, any_cons,
      any_nil, Bool.or_false, if_true, map_append, count_append, map_cons,
      map_nil] at this ⊢
    omega
  | forwarded hb hinv hq hq' =>
    refine ⟨hinv, fun key => ?_, fun key => ?_, fun key => ?_, ?_, h.queue_keyed, fun t => ?_,
      h.replied_count⟩
    · have := h.outstanding key
      by_cases hk : key = cur.barHash
      · subst hk
        rw [hq, take_nil, filter_append, append_eq_nil_iff] at this
        simp [perform, Action.isReply, forward, keyed_self hb, hq', this]
      · simpa [perform, Action.isReply, forward, hq', hk, keyed_of_ne (Ne.symm hk)] using this
    · have := h.accepted_eq key
      by_cases hk : key = cur.barHash
      · subst hk
        rw [hq] at this
        simp_all [perform, Action.isReply, forward, keyed_self hb]
      · simpa [perform, Action.isReply, forward, hq', hk, keyed_of_ne (Ne.symm hk)] using this
    · have := h.forwarded_eq key
      simp [perform, Action.isReply, forward, this]
    · simpa [perform, Action.isReply, forward, hb] using h.bypassed
    · exact h.forward_count t
  | queued hb hinv hq hq' =>
    refine ⟨hinv, fun key => ?_, fun key => ?_, h.forwarded_eq, ?_, h.queue_keyed,
      h.completed_count, h.replied_count⟩
    · have := h.outstanding key
      by_cases hk : key = cur.barHash
      · subst hk
        obtain ⟨t, rest, hrest⟩ := exists_cons_of_ne_nil hq
        simp_all
      · simpa [hq', hk] using this
    · have := h.accepted_eq key
      by_cases hk : key = cur.barHash
      · subst hk
        simp [hq', keyed_self hb, this]
      · simpa [hq', hk, keyed_of_ne (Ne.symm hk)] using this
    · simpa [hb] using h.bypassed

theorem Inv.complete (h : Inv s) (hrun : cur ∈ s.running) : Inv (s.complete cur) := by
  have hcount : ∀ t, s.running.count t = (s.running.erase cur).count t + [cur].count t := by
    intro t
    rw [← count_append]
    exact ((perm_cons_erase hrun).trans (perm_append_singleton _ _).symm).count_eq t
  have hrunning : ∀ t, s.forwarded.count t =
      (s.completed ++ [cur]).count t + (s.running.erase cur).count t := by
    intro t
    have h1 := h.completed_count t
    have h2 := hcount t
    rw [count_append]
    omega
  have hreplied : ∀ t, ((s.replied ++ [(cur, none)]).map Prod.fst).count t =
      s.rejected.count t + (s.completed ++ [cur]).count t := by
    intro t
    have h1 := h.replied_count t
    rw [map_append, count_append, count_append, h1, Nat.add_assoc]
    rfl
  cases hb : cur.bypasses with
  | true =>
    have hk : ∀ key, cur.keyed key = false := fun _ => keyed_of_bypasses hb
    have herase : ∀ key, (s.running.erase cur).filter (·.keyed key) =
        s.running.filter (·.keyed key) := by
      intro key
      rw [← erase_filter, erase_of_not_mem (by simp [hk])]
    simp only [System.complete, BarrierUnit.replyNotify_of_bypasses hb]
    refine ⟨h.unit, fun key => ?_, fun key => ?_, fun key => ?_, h.bypassed, h.queue_keyed,
      hrunning, hreplied⟩
    · simpa [perform, herase] using h.outstanding key
    · simpa [perform, hk] using h.accepted_eq key
    · simpa [perform, hk, herase] using h.forwarded_eq key
  | false =>
    -- the completed task is the only outstanding one of its key, hence at the front of its queue
    have hmem : cur ∈ s.running.filter (·.keyed cur.barHash) :=
      mem_filter.mpr ⟨hrun, keyed_self hb⟩
    have hout := h.outstanding cur.barHash
    rw [filter_append] at hout
    obtain ⟨front, rest, hq⟩ : ∃ front rest, s.unit.queueOf cur.barHash = front :: rest := by
      refine exists_cons_of_ne_nil fun hnil => ?_
      rw [hnil, take_nil, append_eq_nil_iff] at hout
      exact ne_nil_of_mem hmem hout.1
    rw [hq, take_succ_cons, take_zero] at hout
    obtain ⟨hr, hqueue⟩ : s.running.filter (·.keyed cur.barHash) = [front] ∧
        s.queue.filter (·.keyed cur.barHash) = [] := by
      rcases append_eq_singleton_iff.mp hout with ⟨hnil, -⟩ | hh
      · exact absurd hnil (ne_nil_of_mem hmem)
      · exact hh
    obtain rfl : cur = front := by simpa [hr] using hmem
    obtain ⟨hinv, hq', hacts⟩ := BarrierUnit.replyNotify_spec h.unit hb hq
    have hnext : ∀ t ∈ rest.head?, t.keyed cur.barHash := fun t ht =>
      h.unit.keyed_queueOf t (hq ▸ mem_cons_of_mem _ (mem_of_mem_head? ht))
    have hself : (s.running.erase cur).filter (·.keyed cur.barHash) = [] := by
      rw [← erase_filter, hr, erase_cons_head]
    have hother : ∀ key, key ≠ cur.barHash →
        (s.running.erase cur).filter (·.keyed key) = s.running.filter (·.keyed key) := by
      intro key hk
      rw [← erase_filter, erase_of_not_mem]
      simp [keyed_of_ne (Ne.symm hk)]
    have hs : s.complete cur = { s with
        unit := (s.unit.replyNotify cur).1
        queue := s.queue ++ rest.head?.toList
        running := s.running.erase cur
        completed := s.completed ++ [cur]
        replied := s.replied ++ [(cur, none)] } := by
      simp only [System.complete, hacts]
      cases rest <;> simp [perform]
    rw [hs]
    refine ⟨hinv, fun key => ?_, fun key => ?_, fun key => ?_, h.bypassed, fun t ht => ?_,
      hrunning, hreplied⟩
    · by_cases hk : key = cur.barHash
      · subst hk
        rw [filter_append, hself, filter_append, hqueue, hq', Function.update_self]
        cases rest with
        | nil => rfl
        | cons next rest => simpa using hnext next rfl
      · rw [filter_append, hother key hk, hq', Function.update_of_ne hk, ← h.outstanding key,
          filter_append, filter_append]
        have hnone : rest.head?.toList.filter (·.keyed key) = [] := by
          simp only [filter_eq_nil_iff, Option.mem_toList]
          intro t ht
          have hkt := (TaskRequest.keyed_iff.mp (hnext t ht)).2
          simp [keyed_of_ne (hkt ▸ Ne.symm hk)]
        rw [hnone, append_nil]
    · by_cases hk : key = cur.barHash
      · subst hk
        simp [hq', h.accepted_eq, hq, keyed_self hb]
      · simp [hq', h.accepted_eq, hk, keyed_of_ne (Ne.symm hk)]
    · by_cases hk : key = cur.barHash
      · subst hk
        simp [h.forwarded_eq, hr, hself, keyed_self hb]
      · simp [h.forwarded_eq, hother key hk, keyed_of_ne (Ne.symm hk)]
    · rcases mem_append.mp ht with ht | ht
      · exact h.queue_keyed t ht
      · exact (TaskRequest.keyed_iff.mp (hnext t (Option.mem_toList.mp ht))).1

theorem Inv.timer (h : Inv s) {p : TaskRequest} {rest : List TaskRequest}
    (hq : s.queue = p :: rest) : Inv ({ s with queue := rest }.forward p) where
  unit := h.unit
  outstanding key := by
    have := h.outstanding key
    rw [hq] at this
    simpa [forward] using this
  accepted_eq := h.accepted_eq
  forwarded_eq key := by simp [forward, h.forwarded_eq]
  bypassed := by
    have hp := h.queue_keyed p (by simp [hq])
    simpa [forward, hp] using h.bypassed
  queue_keyed t ht := h.queue_keyed t (by rw [hq]; exact mem_cons_of_mem _ ht)
  completed_count t := h.forward_count t
  replied_count := h.replied_count

theorem Inv.step (h : Inv s) {e : Event} (hs : s.step e = some s') : Inv s' := by
  cases e with
  | taskNotify cur =>
    cases hs
    exact h.arrive cur
  | replyNotify cur =>
    simp only [System.step] at hs
    split_ifs at hs with hrun
    cases hs
    exact h.complete hrun
  | timerNotify =>
    simp only [System.step] at hs
    split at hs
    · cases hs
    · rename_i p rest hq
      cases hs
      exact h.timer hq

theorem Inv.serialised (h : Inv s) : Serialised s where
  one_per_key key := by
    rw [h.outstanding]
    exact length_take_le 1 _
  in_order key := by
    rw [h.accepted_eq, h.forwarded_eq, append_assoc, append_assoc, ← append_assoc
      (s.running.filter _), ← filter_append, h.outstanding, ← drop_one,
      take_append_drop]
  bypassed := h.bypassed
  progress hr hq key := by
    have := h.outstanding key
    rw [hr, hq] at this
    cases hk : s.unit.queueOf key with
    | nil => rfl
    | cons t rest => simp [hk] at this
  completed_count := h.completed_count
  replied_count := h.replied_count
  placed b hb := ⟨_, h.unit.mem_iff.mpr ⟨hb, rfl⟩, fun l hl => (h.unit.mem_iff.mp hl).2⟩
  linked_once := h.unit.linked.nodup
  slot_lt b i hb := by
    rw [(h.unit.mem_slot.mp hb).2, key2idx, barrierHashMax]
    omega
  count_eq := h.unit.count_eq

/-- After every interleaving of arrivals, completions and timer ticks, at most one task of a key
is outstanding, the tasks of a key are forwarded in their order of arrival, each once, every
forwarded task is completed and replied at most once, and the barrier objects are accounted for. -/
theorem run_serialised (max maxkeycount : Int) (events : List Event)
    (hrun : runOps step (init max maxkeycount) events = some s) : Serialised s := by
  have hinv : Inv s := invariant_run (fun _ _ _ h hs => h.step hs) (inv_init max maxkeycount)
    events hrun
  exact hinv.serialised

/-- Two tasks of one key: the second waits for the completion of the first. -/
theorem run_serialised_pair :
    let t (id : Nat) : TaskRequest := ⟨id, 4, 0, false, 77⟩
    let events := [.taskNotify (t 1), .taskNotify (t 2), .replyNotify (t 1), .timerNotify]
    ∃ s, runOps step (init 10 10) events = some s ∧ s.forwarded = [t 1, t 2] ∧
      s.running = [t 2] ∧ Serialised s := by
  intro t events
  have hrun : (runOps step (init 10 10) events).map (fun s => (s.forwarded, s.running)) =
      some ([t 1, t 2], [t 2]) := by decide
  obtain ⟨s, hs, heq⟩ := Option.map_eq_some_iff.mp hrun
  obtain ⟨hf, hr⟩ := Prod.mk.inj heq
  exact ⟨s, hs, hf, hr, run_serialised 10 10 events hs⟩

end System

end ISearch.Fence
