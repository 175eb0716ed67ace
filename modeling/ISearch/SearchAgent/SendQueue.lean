import ISearch.Lib.Run
import Mathlib.Algebra.Order.Ring.Nat
import Mathlib.Data.Finset.Basic

/-!
# The send queues of the search agent (`sa_server_conn.cc`, `sa_client_conn.cc`)

`MessageSendChain` asks a connection for one message after the other, `IOV_MAX` at most. A shard
connection keeps the message it handed out at the head of its queue until it is asked for the next
one. A client connection takes it off at once, and one more when it is asked for the next one.

Messages are their ids. Events and `writev` are left out.
-/

namespace ISearch.SearchAgent

open List

/-! ## Requests to a shard -/

/-- `CInstanceConn`, with `m_oInMessageQueue`. `m_pSendMessage` is null or at the head of the
queue. -/
structure InstanceConn where
  queue : List Nat
  sending : Bool

namespace InstanceConn

/-- The queue without the message of the last call. -/
def pending (c : InstanceConn) : List Nat := if c.sending then c.queue.tail else c.queue

def enMessageInQueue (c : InstanceConn) (id : Nat) : InstanceConn :=
  { c with queue := c.queue ++ [id] }

def sendNext (c : InstanceConn) : Option Nat × InstanceConn :=
  if c.queue = [] then (none, c)
  else
    match c.pending with
    | [] => (none, ⟨[], false⟩)
    | id :: queue => (some id, ⟨id :: queue, true⟩)

/-- The messages of a `MessageSendChain`, `limit` at most. -/
def collect : Nat → InstanceConn → List Nat × InstanceConn
  | 0, c => ([], c)
  | limit + 1, c =>
    match c.sendNext with
    | (none, c) => ([], c)
    | (some id, c) => (id :: (c.collect limit).1, (c.collect limit).2)

inductive Op where
  | enMessageInQueue (id : Nat)
  | chain (limit : Nat)

def step (c : InstanceConn) : Op → List Nat × InstanceConn
  | .enMessageInQueue id => ([], c.enMessageInQueue id)
  | .chain limit => c.collect limit

/-- The messages that enter the queue. -/
def entered : List Op → List Nat
  | [] => []
  | .enMessageInQueue id :: ops => id :: entered ops
  | .chain _ :: ops => entered ops

/-- A message that was handed out is still there. -/
def Ok (c : InstanceConn) : Prop := c.sending → c.queue ≠ []

theorem pending_enMessageInQueue {c : InstanceConn} (h : c.Ok) (id : Nat) :
    (c.enMessageInQueue id).pending = c.pending ++ [id] := by
  by_cases hsending : c.sending
  · simpa [pending, enMessageInQueue, hsending] using tail_append_of_ne_nil (h hsending)
  · simp [pending, enMessageInQueue, hsending]

theorem collect_spec (limit : Nat) {c : InstanceConn} (h : c.Ok) :
    (c.collect limit).1 ++ (c.collect limit).2.pending = c.pending ∧ (c.collect limit).2.Ok := by
  induction limit generalizing c with
  | zero => exact ⟨rfl, h⟩
  | succ limit ih =>
    rw [collect, sendNext]
    by_cases hempty : c.queue = []
    · rw [if_pos hempty]
      exact ⟨rfl, h⟩
    · rw [if_neg hempty]
      cases hpending : c.pending with
      | nil => exact ⟨rfl, Bool.noConfusion⟩
      | cons id queue =>
        obtain ⟨heq, hok⟩ := ih (c := ⟨id :: queue, true⟩) fun _ => cons_ne_nil id queue
        exact ⟨congrArg (id :: ·) heq, hok⟩

theorem run_eq (ops : List Op) {c : InstanceConn} (h : c.Ok) :
    (outputs step c ops).flatten ++ (ops.foldl (fun c op => (step c op).2) c).pending =
      c.pending ++ entered ops := by
  induction ops generalizing c with
  | nil => exact (append_nil _).symm
  | cons op ops ih =>
    rw [outputs, foldl_cons, flatten_cons, append_assoc]
    cases op with
    | enMessageInQueue id =>
      have hok : (c.enMessageInQueue id).Ok := fun _ => by simp [enMessageInQueue]
      rw [step, ih hok, pending_enMessageInQueue h]
      exact append_assoc ..
    | chain limit =>
      obtain ⟨heq, hok⟩ := collect_spec limit h
      rw [step, ih hok, ← append_assoc, heq]
      rfl

/-- Whatever the order of requests and chains, each request is handed out once and in its turn. -/
theorem run_fifo (ops : List Op) :
    (outputs step ⟨[], false⟩ ops).flatten ++
      (ops.foldl (fun c op => (step c op).2) ⟨[], false⟩).pending = entered ops :=
  run_eq ops Bool.noConfusion

end InstanceConn

/-! ## Replies to a client -/

/-- `CClientConn`, with `m_oOutMessageQueue` and `m_mapOutMessageMapper`. -/
structure ClientConn where
  outQueue : List Nat
  mapper : Finset Nat
  sending : Bool

namespace ClientConn

/-- The loop of `SendNext`. It takes the head off before it looks at the next one; `none` reads the
head of the emptied queue. -/
def popUnmapped (mapper : Finset Nat) : List Nat → Option (List Nat)
  | [] => some []
  | _ :: queue =>
    match queue with
    | [] => none
    | id :: _ => if id ∈ mapper then some queue else popUnmapped mapper queue

/-- `SendNext`; `none` where there is no head, or the message is not in the map. -/
def sendNext (c : ClientConn) : Option (Option Nat × ClientConn) :=
  (if c.sending then popUnmapped c.mapper c.outQueue else some c.outQueue).bind fun
    | [] => some (none, { c with outQueue := [], sending := false })
    | id :: queue =>
      if id ∈ c.mapper then
        some (some id, { c with outQueue := queue, mapper := c.mapper.erase id, sending := true })
      else none

def collect : Nat → ClientConn → Option (List Nat × ClientConn)
  | 0, c => some ([], c)
  | limit + 1, c => c.sendNext.bind fun next =>
    match next with
    | (none, c) => some ([], c)
    | (some id, c) => (c.collect limit).map fun r => (id :: r.1, r.2)

/-- The first, the third, the fifth and so on. -/
def alternate : List Nat → List Nat
  | [] => []
  | [id] => [id]
  | id :: _ :: queue => id :: alternate queue

theorem alternate_cons (id : Nat) (queue : List Nat) :
    alternate (id :: queue) = id :: alternate queue.tail := by
  cases queue <;> rfl

theorem length_alternate (queue : List Nat) :
    (alternate queue).length = (queue.length + 1) / 2 := by
  fun_induction alternate queue <;> grind

/-- The replies that wait are all in the map. -/
def Mapped (c : ClientConn) : Prop := c.outQueue.Nodup ∧ ∀ id ∈ c.outQueue, id ∈ c.mapper

/-- The queue without the head that the next call takes off. -/
def pending (c : ClientConn) : List Nat := if c.sending then c.outQueue.tail else c.outQueue

/-- The last message will be taken off for a next one that is not there. -/
def RunsOut (c : ClientConn) : Prop := c.outQueue ≠ [] ∧ c.pending.length % 2 = 0

instance (c : ClientConn) : Decidable c.RunsOut := inferInstanceAs (Decidable (_ ∧ _))

/-- A message leaves the queue when it is found, and one more when the next is asked for. -/
theorem collect_eq {limit : Nat} {c : ClientConn} (h : c.Mapped)
    (hlimit : (alternate c.pending).length < limit) :
    (c.collect limit).map Prod.fst = if c.RunsOut then none else some (alternate c.pending) := by
  induction limit generalizing c with
  | zero => exact absurd hlimit (Nat.not_lt_zero _)
  | succ limit ih =>
    rw [collect]
    cases hpending : c.pending with
    | nil =>
      rw [pending] at hpending
      by_cases hempty : c.outQueue = []
      · have hnext : c.sendNext = some (none, { c with outQueue := [], sending := false }) := by
          rw [sendNext, hempty]
          split_ifs <;> rfl
        rw [hnext, if_neg fun hout => hout.1 hempty]
        rfl
      · have hsending : c.sending = true := by
          by_contra hsending
          exact hempty (by rwa [if_neg hsending] at hpending)
        rw [if_pos hsending] at hpending
        obtain ⟨last, queue, hqueue⟩ := List.exists_cons_of_ne_nil hempty
        obtain rfl : queue = [] := by simpa [hqueue] using hpending
        have hnext : c.sendNext = none := by
          rw [sendNext, if_pos hsending, hqueue]
          rfl
        rw [hnext, if_pos ⟨hempty, by rw [pending, if_pos hsending, hpending]; rfl⟩]
        rfl
    | cons id queue =>
      have hsub : c.pending.Sublist c.outQueue := by
        rw [pending]
        split_ifs
        · exact List.tail_sublist _
        · exact List.Sublist.refl _
      rw [hpending] at hsub
      obtain ⟨hid, hqueue⟩ := List.nodup_cons.mp (h.1.sublist hsub)
      have hmem := h.2 id (hsub.subset List.mem_cons_self)
      have hmapped : ClientConn.Mapped { c with
          outQueue := queue, mapper := c.mapper.erase id, sending := true } :=
        ⟨hqueue, fun i hi => Finset.mem_erase.mpr ⟨fun heq => hid (heq ▸ hi),
          h.2 i (hsub.subset (List.mem_cons_of_mem id hi))⟩⟩
      have hnext : c.sendNext = some (some id, { c with
          outQueue := queue, mapper := c.mapper.erase id, sending := true }) := by
        have hpop : (if c.sending then popUnmapped c.mapper c.outQueue else some c.outQueue) =
            some (id :: queue) := by
          rw [pending] at hpending
          split_ifs at hpending ⊢
          · obtain ⟨last, rest, hrest⟩ := List.exists_cons_of_ne_nil
              (List.ne_nil_of_mem (hsub.subset List.mem_cons_self))
            obtain rfl : rest = id :: queue := by simpa [hrest] using hpending
            rw [hrest]
            exact if_pos hmem
          · rw [hpending]
        rw [sendNext, hpop, Option.bind_some]
        exact if_pos hmem
      have hne : c.outQueue ≠ [] := List.ne_nil_of_mem (hsub.subset List.mem_cons_self)
      have hout : (ClientConn.RunsOut { c with
          outQueue := queue, mapper := c.mapper.erase id, sending := true }) ↔ c.RunsOut := by
        rw [RunsOut, RunsOut, hpending, pending, if_pos rfl]
        cases queue with
        | nil => simp
        | cons _ queue =>
          refine (and_iff_right (List.cons_ne_nil _ _)).trans (Iff.trans ?_ (and_iff_right hne).symm)
          rw [List.tail_cons, List.length_cons, List.length_cons]
          omega
      rw [hpending, alternate_cons, List.length_cons] at hlimit
      have hrest := ih hmapped (by simpa [pending] using hlimit)
      rw [hnext, alternate_cons, Option.bind_some]
      dsimp only
      rw [Option.map_map, show Prod.fst ∘ (fun r : List Nat × ClientConn => (id :: r.1, r.2)) =
        (id :: ·) ∘ Prod.fst from rfl, ← Option.map_map, hrest]
      simp only [hout, apply_ite (Option.map (id :: ·))]
      rfl

/-- Every other reply that waits is sent in a chain with room for all, and for an even number of
them the last is taken off for one that is not there. -/
theorem collect_alternate {c : ClientConn} (h : c.Mapped) (hnew : c.sending = false) {limit : Nat}
    (hlimit : c.outQueue.length < limit) :
    ((c.collect limit).map Prod.fst =
      if c.outQueue ≠ [] ∧ c.outQueue.length % 2 = 0 then none else some (alternate c.outQueue)) ∧
      (alternate c.outQueue = c.outQueue ↔ c.outQueue.length ≤ 1) := by
  have hlength := length_alternate c.outQueue
  have hpending : c.pending = c.outQueue := by
    rw [pending, hnew]
    rfl
  refine ⟨?_, fun hall => by grind, fun hle => ?_⟩
  · have hruns : c.RunsOut ↔ c.outQueue ≠ [] ∧ c.outQueue.length % 2 = 0 := by
      rw [RunsOut, hpending]
    rw [collect_eq h (by rw [hpending]; omega), hpending, if_congr hruns rfl rfl]
  · match c.outQueue, hle with
    | [], _ => rfl
    | [_], _ => rfl

theorem collect_alternate_three :
    (((⟨[4, 5, 6], {4, 5, 6}, false⟩ : ClientConn).collect 4).map Prod.fst =
        if [4, 5, 6] ≠ [] ∧ [4, 5, 6].length % 2 = 0 then none else some (alternate [4, 5, 6])) ∧
      (alternate [4, 5, 6] = [4, 5, 6] ↔ [4, 5, 6].length ≤ 1) :=
  collect_alternate ⟨by decide, by decide⟩ rfl (by decide)

end ClientConn

end ISearch.SearchAgent
