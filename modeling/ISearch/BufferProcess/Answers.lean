import Mathlib.Data.List.Perm.Basic
import ISearch.BufferProcess.Commits

/-!
# Answers (`buffer_unit.cc`)

A task that enters the cache unit is answered at once, goes to the helper, or waits for the flush
request of its node. `run_answeredOnce` says when each task gets one answer, and when a Purge that
is answered with success has removed its key.
-/

namespace ISearch.BufferProcess

open List

variable {K R : Type}

/-! ## The cache unit -/

/-- A task with its command and key. -/
structure Waiter (K : Type) where
  id : Nat
  cmd : Cmd
  key : K

/-- `DTCFlushRequest` with the task that waits for it; `ok` is false where `flush_data` failed. -/
structure FlushRequest (K : Type) where
  numReq : Nat
  ok : Bool
  wait : Waiter K

/-- An answer, and whether the key was in the cache then. -/
structure Answer where
  id : Nat
  cmd : Option Cmd
  success : Bool
  inCache : Bool

/-- The cache unit: the tasks that have entered it, the flush requests that tasks wait for, the
tasks given to the helper, the remote node or the hot backup thread, and the answers. Admin commands
have no `Waiter`. -/
structure CacheUnit (K R : Type) where
  pool : Pool K R
  arrived : List Nat
  flushes : List (FlushRequest K)
  away : List (Nat × Option (Waiter K))
  answers : List Answer

/-- An operation that no task of the unit is behind. -/
def Op.internal : Op K R → Bool
  | .request .. | .reply .. | .replyError .. => false
  | _ => true

/-- The key whose rows an admin command stores. -/
def Op.stores : Op K R → Option K
  | .replaceRawData t | .migrate t => some t.key
  | _ => none

inductive Event (K R : Type) where
  /-- A request enters. -/
  | taskNotify (id : Nat) (cmd : Cmd) (t : Task K R)
  /-- A task enters that has expired or carries an error. -/
  | refuse (id : Nat)
  /-- An admin command enters and is answered at once, or goes away. -/
  | admin (id : Nat) (ops : List (Op K R)) (answer : Option Bool)
  /-- The task at a place of `away` comes back, with an error or not. -/
  | replyNotify (place : Nat) (t : Task K R) (error : Option (Bool × Bool))
  | adminReply (place : Nat) (ops : List (Op K R)) (success : Bool)
  /-- The helper has committed a row of the flush request at a place. -/
  | completeRow (place : Nat)
  /-- The timers and the purges of the cache. -/
  | internal (op : Op K R)

namespace CacheUnit

def answer (u : CacheUnit K R) (w : Waiter K) (success : Bool) : CacheUnit K R :=
  { u with answers := u.answers ++ [⟨w.id, some w.cmd, success, (u.pool.find w.key).isSome⟩] }

/-- `commit_flush_request`: the destructor of a flush request without rows answers the task. -/
def commit (u : CacheUnit K R) (w : Waiter K) : Option (Nat × Bool) → CacheUnit K R
  | none => u
  | some (0, _) => u.answer w true
  | some (numReq, ok) => { u with flushes := u.flushes ++ [⟨numReq, ok, w⟩] }

/-- What `task_notify` does with the result of a request. -/
def settle (u : CacheUnit K R) (cfg : Config) (w : Waiter K) : BufferResult → CacheUnit K R
  | .ok => u.answer w true
  | .error => u.answer w false
  | .next => if cfg.nodbMode then u.answer w true else { u with away := u.away ++ [(w.id, some w)] }
  | .pending => u

variable [DecidableEq K]

def step (cfg : Config) (u : CacheUnit K R) : Event K R → Option (CacheUnit K R)
  | .taskNotify id cmd t =>
    if id ∈ u.arrived then none
    else
      let w : Waiter K := ⟨id, cmd, t.key⟩
      let s : St K R := { pool := u.pool }
      let t := { t with blackHole := cfg.nodbMode }
      let r := if cfg.nodbMode then s.bufferProcessNodb cfg t cmd
        else s.bufferProcessRequest cfg t cmd
      let u := u.commit w (if cfg.nodbMode then none else s.requestCommits cfg t cmd)
      some ({ u with pool := r.2.transationEnd cfg, arrived := id :: u.arrived }.settle cfg w r.1)
  | .refuse id =>
    if id ∈ u.arrived then none
    else some { u with
      arrived := id :: u.arrived
      answers := u.answers ++ [⟨id, none, false, false⟩] }
  | .admin id ops answer =>
    if id ∈ u.arrived ∨ ops.all Op.internal = false then none
    else (runOps (BufferProcess.step cfg) u.pool ops).map fun pool =>
      match answer with
      | some success => { u with
          pool
          arrived := id :: u.arrived
          answers := u.answers ++ [⟨id, none, success, false⟩] }
      | none => { u with pool, arrived := id :: u.arrived, away := u.away ++ [(id, none)] }
  | .replyNotify place t error =>
    match u.away[place]? with
    | some (_, some w) =>
      if w.key ≠ t.key then none
      else
        let s : St K R := { pool := u.pool }
        let r := match error with
          | none => s.bufferProcessReply cfg t w.cmd
          | some (duplicateEntry, unknown) =>
            s.bufferProcessError cfg t duplicateEntry unknown w.cmd
        let u := u.commit w (if error = none then s.replyCommits cfg t w.cmd else none)
        some ({ u with pool := r.2.transationEnd cfg, away := u.away.eraseIdx place }.answer w
          (r.1 = BufferResult.ok))
    | _ => none
  | .adminReply place ops success =>
    match u.away[place]? with
    | some (id, none) =>
      if ops.all Op.internal = false then none
      else (runOps (BufferProcess.step cfg) u.pool ops).map fun pool => { u with
        pool
        away := u.away.eraseIdx place
        answers := u.answers ++ [⟨id, none, success, false⟩] }
    | _ => none
  | .completeRow place =>
    match u.flushes[place]? with
    | none => none
    | some f =>
      if f.numReq = 1 then
        some ({ u with flushes := u.flushes.eraseIdx place }.answer f.wait f.ok)
      else some { u with flushes := u.flushes.set place { f with numReq := f.numReq - 1 } }
  | .internal op =>
    if op.internal then (BufferProcess.step cfg u.pool op).map fun pool => { u with pool } else none

/-! ## Tasks that get one answer -/

/-- How often the task was answered, how many flush requests it waits for, and how often it is away.
-/
def answered (u : CacheUnit K R) (id : Nat) : Nat := u.answers.countP (·.id = id)
def waiting (u : CacheUnit K R) (id : Nat) : Nat := u.flushes.countP (·.wait.id = id)
def gone (u : CacheUnit K R) (id : Nat) : Nat := u.away.countP (·.1 = id)

/-- No Purge of the key waits. -/
def Unfenced (u : CacheUnit K R) (key : K) : Prop :=
  ∀ f ∈ u.flushes, f.wait.cmd = .purge → f.wait.key ≠ key

/-- The requests and replies flush as their tasks can wait for, and nothing stores a key while a
Purge of it waits. -/
def StepOk (cfg : Config) (u : CacheUnit K R) : Event K R → Prop
  | .taskNotify _ cmd t =>
    St.RequestOk cfg { t with blackHole := cfg.nodbMode } { pool := u.pool } cmd ∧ u.Unfenced t.key
  | .replyNotify place t error =>
    (error = none → ∀ id w, u.away[place]? = some (id, some w) →
      St.ReplyOk cfg t { pool := u.pool } w.cmd) ∧ u.Unfenced t.key
  | .admin _ ops _ | .adminReply _ ops _ => ∀ op ∈ ops, ∀ key ∈ op.stores, u.Unfenced key
  | .internal op => ∀ key ∈ op.stores, u.Unfenced key
  | .refuse _ | .completeRow _ => True

/-- The keys of waiting Purges are not in the pool. -/
def Clears (u : CacheUnit K R) (pool : Pool K R) : Prop :=
  ∀ f ∈ u.flushes, f.wait.cmd = .purge → pool.hash f.wait.key = []

structure Inv (u : CacheUnit K R) : Prop where
  once : ∀ id, u.answered id + u.waiting id + u.gone id = if id ∈ u.arrived then 1 else 0
  tagged : ∀ x ∈ u.away, ∀ w ∈ x.2, w.id = x.1
  positive : ∀ f ∈ u.flushes, 0 < f.numReq
  absent : u.Clears u.pool
  purged : ∀ a ∈ u.answers, a.cmd = some .purge → a.success = true → a.inCache = false

namespace Inv

omit [DecidableEq K]

variable {u : CacheUnit K R} {pool : Pool K R} {a : Answer} {id place : Nat}

theorem setPool (inv : u.Inv) (hpool : u.Clears pool) : { u with pool := pool }.Inv :=
  ⟨inv.once, inv.tagged, inv.positive, hpool, inv.purged⟩

theorem purged_append (inv : u.Inv)
    (ha : a.cmd = some .purge → a.success = true → a.inCache = false) :
    ∀ b ∈ u.answers ++ [a], b.cmd = some .purge → b.success = true → b.inCache = false := by
  intro b hb
  rw [mem_append, mem_singleton] at hb
  rcases hb with hb | rfl
  · exact inv.purged b hb
  · exact ha

/-- A new task that is answered. -/
theorem enterAnswer (inv : u.Inv) (hid : a.id ∉ u.arrived)
    (ha : a.cmd = some .purge → a.success = true → a.inCache = false) :
    { u with arrived := a.id :: u.arrived, answers := u.answers ++ [a] }.Inv := by
  refine ⟨fun i => ?_, inv.tagged, inv.positive, inv.absent, inv.purged_append ha⟩
  have honce := inv.once i
  simp only [answered, waiting, gone] at honce ⊢
  rw [countP_append, countP_singleton]
  by_cases hi : i = a.id
  · subst hi
    rw [if_neg hid] at honce
    simp
    omega
  · simp only [mem_cons, hi, false_or, decide_eq_true_eq, Ne.symm hi, if_false]
    omega

/-- A new task that goes away. -/
theorem enterAway (inv : u.Inv) (hid : id ∉ u.arrived) {w : Option (Waiter K)}
    (hw : ∀ x ∈ w, x.id = id) :
    { u with arrived := id :: u.arrived, away := u.away ++ [(id, w)] }.Inv := by
  refine ⟨fun i => ?_, fun x hx => ?_, inv.positive, inv.absent, inv.purged⟩
  · have honce := inv.once i
    simp only [answered, waiting, gone] at honce ⊢
    rw [countP_append, countP_singleton]
    by_cases hi : i = id
    · subst hi
      rw [if_neg hid] at honce
      simp
      omega
    · simp only [mem_cons, hi, false_or, decide_eq_true_eq, Ne.symm hi, if_false]
      omega
  · rw [mem_append, mem_singleton] at hx
    rcases hx with hx | rfl
    · exact inv.tagged x hx
    · exact hw

/-- A new task that waits. -/
theorem enterFlush (inv : u.Inv) {f : FlushRequest K} (hid : f.wait.id ∉ u.arrived)
    (hpos : 0 < f.numReq) (habsent : f.wait.cmd = .purge → u.pool.hash f.wait.key = []) :
    { u with arrived := f.wait.id :: u.arrived, flushes := u.flushes ++ [f] }.Inv := by
  refine ⟨fun i => ?_, inv.tagged, fun x hx => ?_, fun x hx => ?_, inv.purged⟩
  · have honce := inv.once i
    simp only [answered, waiting, gone] at honce ⊢
    rw [countP_append, countP_singleton]
    by_cases hi : i = f.wait.id
    · subst hi
      rw [if_neg hid] at honce
      simp
      omega
    · simp only [mem_cons, hi, false_or, decide_eq_true_eq, Ne.symm hi, if_false]
      omega
  · rw [mem_append, mem_singleton] at hx
    rcases hx with hx | rfl
    · exact inv.positive x hx
    · exact hpos
  · rw [mem_append, mem_singleton] at hx
    rcases hx with hx | rfl
    · exact inv.absent x hx
    · exact habsent

/-- A task that comes back is answered. -/
theorem leaveAway (inv : u.Inv) {w : Option (Waiter K)} (hplace : u.away[place]? = some (a.id, w))
    (ha : a.cmd = some .purge → a.success = true → a.inCache = false) :
    { u with away := u.away.eraseIdx place, answers := u.answers ++ [a] }.Inv := by
  refine ⟨fun i => ?_, fun x hx => inv.tagged x (mem_of_mem_eraseIdx hx), inv.positive, inv.absent,
    inv.purged_append ha⟩
  obtain ⟨hlt, heq⟩ := List.getElem?_eq_some_iff.mp hplace
  have hperm := (getElem_cons_eraseIdx_perm hlt).countP_eq (fun x => decide (x.1 = i))
  rw [heq, countP_cons] at hperm
  dsimp only at hperm
  have honce := inv.once i
  simp only [answered, waiting, gone] at honce ⊢
  rw [countP_append, countP_singleton]
  omega

/-- A flush request that is complete answers its task. -/
theorem leaveFlush (inv : u.Inv) {f : FlushRequest K} (hplace : u.flushes[place]? = some f)
    (ha : a.cmd = some .purge → a.success = true → a.inCache = false) (hid : a.id = f.wait.id) :
    { u with flushes := u.flushes.eraseIdx place, answers := u.answers ++ [a] }.Inv := by
  refine ⟨fun i => ?_, inv.tagged, fun x hx => inv.positive x (mem_of_mem_eraseIdx hx),
    fun x hx => inv.absent x (mem_of_mem_eraseIdx hx), inv.purged_append ha⟩
  obtain ⟨hlt, heq⟩ := List.getElem?_eq_some_iff.mp hplace
  have hperm := (getElem_cons_eraseIdx_perm hlt).countP_eq (fun x => decide (x.wait.id = i))
  rw [heq, countP_cons] at hperm
  have honce := inv.once i
  simp only [answered, waiting, gone] at honce ⊢
  rw [countP_append, countP_singleton, hid]
  omega

/-- A flush request that has rows left. -/
theorem setFlush (inv : u.Inv) {f : FlushRequest K} (hplace : u.flushes[place]? = some f) {n : Nat}
    (hn : 0 < n) : { u with flushes := u.flushes.set place { f with numReq := n } }.Inv := by
  obtain ⟨hlt, heq⟩ := List.getElem?_eq_some_iff.mp hplace
  have hmem : f ∈ u.flushes := heq ▸ getElem_mem hlt
  refine ⟨fun i => ?_, inv.tagged, fun x hx => ?_, fun x hx => ?_, inv.purged⟩
  · have hset := (set_perm_cons_eraseIdx hlt { f with numReq := n }).countP_eq
      (fun x => decide (x.wait.id = i))
    have hperm := (getElem_cons_eraseIdx_perm hlt).countP_eq (fun x => decide (x.wait.id = i))
    rw [heq, countP_cons] at hperm
    rw [countP_cons] at hset
    have honce := inv.once i
    simp only [answered, waiting, gone, decide_eq_true_eq] at honce hset hperm ⊢
    omega
  · rcases mem_or_eq_of_mem_set hx with hx | rfl
    · exact inv.positive x hx
    · exact hn
  · rcases mem_or_eq_of_mem_set hx with hx | rfl
    · exact inv.absent x hx
    · exact inv.absent f hmem

end Inv

/-! ## Operations without a task -/

omit [DecidableEq K] in
theorem hash_bufferAdjustLru (p : Pool K R) (keys : List K) :
    (p.bufferAdjustLru keys).hash = p.hash := by
  induction keys generalizing p with
  | nil => rfl
  | cons key keys ih =>
    rw [Pool.bufferAdjustLru]
    split
    · rfl
    · exact ih _

theorem absent_internal {cfg : Config} {p p' : Pool K R} {k : K} {op : Op K R}
    (hop : op.internal = true) (hk : ∀ key ∈ op.stores, k ≠ key) (h : p.hash k = [])
    (hstep : BufferProcess.step cfg p op = some p') : p'.hash k = [] := by
  have hpurge (q : Pool K R) (key : K) (hq : q.hash k = []) : (q.cachePurge key).hash k = [] := by
    rw [Pool.cachePurge]
    split
    · exact hq
    · rw [Pool.hash_purgeNode, hq]
      rfl
  have hreplace (q : Pool K R) (t : RawTask K R) (id : Nat) (hq : q.hash k = []) :
      (q.replaceRaw cfg t id).hash k = [] := by
    rw [Pool.replaceRaw]
    split
    · split
      · exact hq
      · rw [Pool.hash_purgeNode, hq]
        rfl
    · exact hq
  have hraw (q q' : Pool K R) (t : RawTask K R) (id : Nat) (hne : k ≠ t.key) (hq : q.hash k = [])
      (heq : q.rawNode t = some (q', id)) : q'.hash k = [] := by
    rw [Pool.rawNode] at heq
    split at heq
    · rw [Pool.hash_allocate hne heq, hq]
    · cases heq
      exact hq
  cases op with
  | request | reply | replyError => cases hop
  | flushTimer node failAt =>
    cases hstep
    split
    · rw [Pool.bufferFlushDataTimer]
      split <;> exact h
    · exact h
  | adjustLru keys =>
    cases hstep
    rwa [hash_bufferAdjustLru]
  | replaceRawData t =>
    cases hstep
    have hne : k ≠ t.key := hk t.key rfl
    have hfilter : (if (t.emptyNode && cfg.hasEmptyNodeFilter) = true then p.setFilter t.key true
        else p).hash k = [] := by
      split <;> exact h
    rw [Pool.bufferReplaceRawData]
    split
    · exact hpurge _ _ hfilter
    split
    · exact hfilter
    split
    · exact hfilter
    next p' id heq => exact hreplace _ t id (hraw _ _ t id hne hfilter heq)
  | migrate t =>
    cases hstep
    have hne : k ≠ t.key := hk t.key rfl
    rw [Pool.bufferMigrate]
    split
    · exact hpurge _ _ h
    split
    · exact h
    split
    · exact h
    next p' id heq =>
      have hp' := hraw _ _ t id hne h heq
      split
      · exact hreplace _ t id hp'
      · exact hreplace _ t id hp'
  | migrated key =>
    cases hstep
    exact hpurge _ _ h
  | tryPurge prePurge fits reserve =>
    cases hstep
    have hpre : (p.prePurgeNodes prePurge reserve).hash k = [] := Pool.foldl_purgeNode_hash h _
    rw [Pool.tryPurgeSize]
    split
    · exact hpre
    · rw [Pool.hash_purgeNode, hpre]
      rfl
  | delayPurge count =>
    cases hstep
    exact Pool.foldl_purgeNode_hash h _
  | shrinkEmpty togo =>
    cases hstep
    exact Pool.foldl_purgeNode_hash h _

variable {cfg : Config} {u u' : CacheUnit K R} {pool : Pool K R}

theorem clears_internal {op : Op K R} (hop : op.internal = true)
    (hok : ∀ key ∈ op.stores, u.Unfenced key) (h : u.Clears u.pool)
    (hstep : BufferProcess.step cfg u.pool op = some pool) : u.Clears pool :=
  fun f hf hcmd => absent_internal hop (fun key hkey => hok key hkey f hf hcmd) (h f hf hcmd) hstep

theorem clears_ops {ops : List (Op K R)} (hops : ops.all Op.internal = true)
    (hok : ∀ op ∈ ops, ∀ key ∈ op.stores, u.Unfenced key) {p : Pool K R} (h : u.Clears p)
    (hrun : runOps (BufferProcess.step cfg) p ops = some pool) : u.Clears pool := by
  induction ops generalizing p with
  | nil =>
    cases hrun
    exact h
  | cons op ops ih =>
    rw [all_cons, Bool.and_eq_true] at hops
    rw [runOps_cons] at hrun
    obtain ⟨p', hp', hrun⟩ := Option.bind_eq_some_iff.mp hrun
    refine ih hops.2 (fun o ho => hok o (mem_cons_of_mem op ho)) (fun f hf hcmd => ?_) hrun
    exact absent_internal hops.1 (fun key hkey => hok op mem_cons_self key hkey f hf hcmd)
      (h f hf hcmd) hp'

/-! ## Steps and runs -/

omit [DecidableEq K] in
/-- A new task that does not wait. -/
theorem Inv.settle (inv : u.Inv) {w : Waiter K} {ret : BufferResult} (hid : w.id ∉ u.arrived)
    (hclears : u.Clears pool) (hret : ret ≠ .pending)
      (hgone : w.cmd = .purge → pool.hash w.key = []) :
    ({ u with pool, arrived := w.id :: u.arrived }.settle cfg w ret).Inv := by
  have hanswer (success : Bool) :
      ({ u with pool, arrived := w.id :: u.arrived }.answer w success).Inv :=
    (inv.setPool hclears).enterAnswer
      (a := ⟨w.id, some w.cmd, success, (pool.find w.key).isSome⟩) hid fun hcmd _ => by
        rw [Pool.find, hgone (Option.some.inj hcmd)]
        rfl
  cases ret with
  | ok => exact hanswer true
  | error => exact hanswer false
  | next =>
    rw [CacheUnit.settle]
    split
    · exact hanswer true
    · exact (inv.setPool hclears).enterAway hid fun x hx => by
        cases hx
        rfl
  | pending => exact absurd rfl hret

/-- What a request does to the keys. -/
theorem clears_request {t : Task K R} {cmd : Cmd} (hfree : u.Unfenced t.key) (h : u.Clears u.pool) :
    u.Clears (St.transationEnd cfg
      (if cfg.nodbMode then St.bufferProcessNodb cfg t { pool := u.pool } cmd
      else St.bufferProcessRequest cfg t { pool := u.pool } cmd).2) := by
  intro f hf hcmd
  rw [St.hash_transationEnd]
  split
  · exact St.absent_bufferProcessNodb (hfree f hf hcmd) (h f hf hcmd) cmd
  · exact St.absent_bufferProcessRequest (hfree f hf hcmd) (h f hf hcmd) cmd

/-- A Purge that is not refused has removed its key. -/
theorem hash_purge {t : Task K R} {cmd : Cmd} {s : St K R} (hcmd : cmd = .purge)
    (hok : s.RequestOk cfg t cmd) :
    (St.transationEnd cfg (if cfg.nodbMode then s.bufferProcessNodb cfg t cmd
      else s.bufferProcessRequest cfg t cmd).2).hash t.key = [] := by
  subst hcmd
  rw [St.hash_transationEnd]
  have hspec := (St.bufferPurgeData_spec hok.1 hok.2).2
  split <;> exact hspec

theorem Inv.taskNotify (inv : u.Inv) {id : Nat} {cmd : Cmd} {t : Task K R}
    (hok : u.StepOk cfg (.taskNotify id cmd t))
      (hstep : u.step cfg (.taskNotify id cmd t) = some u') :
    u'.Inv := by
  rw [step] at hstep
  split at hstep
  · cases hstep
  next hid =>
    obtain ⟨hrequest, hfree⟩ := hok
    have hfree' : u.Unfenced ({ t with blackHole := cfg.nodbMode } : Task K R).key := hfree
    have hclears := @clears_request _ _ _ cfg _ _ cmd hfree' inv.absent
    have hgone (hcmd : cmd = .purge) := @hash_purge _ _ _ cfg _ _ _ hcmd hrequest
    dsimp only at hstep hgone
    cases hnodb : cfg.nodbMode with
    | true =>
      have hret := St.bufferProcessNodb_answers hnodb hrequest
      rw [hnodb] at hstep hclears hgone hret
      simp only [if_true, commit, Option.some.injEq] at hstep hclears hgone
      rw [← hstep]
      exact inv.settle (w := ⟨id, cmd, t.key⟩) hid hclears hret hgone
    | false =>
      have hspec := St.bufferProcessRequest_spec hnodb hrequest
      rw [hnodb] at hstep hclears hgone hspec
      simp only [Bool.false_eq_true, if_false, Option.some.injEq] at hstep hclears hgone
      rw [← hstep]
      rcases hspec with ⟨hret, hnone⟩ | ⟨hret, n, hn⟩
      · rw [hnone]
        exact inv.settle (w := ⟨id, cmd, t.key⟩) hid hclears hret hgone
      · rw [hn, hret]
        exact (inv.setPool hclears).enterFlush (f := ⟨n + 1, true, ⟨id, cmd, t.key⟩⟩) hid
          (Nat.succ_pos n) hgone

theorem Inv.replyNotify (inv : u.Inv) {place : Nat} {t : Task K R} {error : Option (Bool × Bool)}
    (hok : u.StepOk cfg (.replyNotify place t error))
    (hstep : u.step cfg (.replyNotify place t error) = some u') : u'.Inv := by
  obtain ⟨hreply, hfree⟩ := hok
  rw [step] at hstep
  split at hstep
  next id w hplace =>
    split at hstep
    · cases hstep
    next hkey =>
      rw [ne_eq, not_not] at hkey
      have hid : w.id = id := inv.tagged _ (mem_of_getElem? hplace) w rfl
      have hcommit : (if error = none then St.replyCommits cfg t { pool := u.pool } w.cmd
        else none) = none := by
        split
        next herror => exact St.replyCommits_eq_none (hreply herror id w hplace)
        · rfl
      dsimp only at hstep
      rw [hcommit, Option.some.injEq] at hstep
      rw [← hstep]
      subst hid
      refine (@Inv.setPool _ _ u (St.transationEnd cfg _) inv ?_).leaveAway
        (a := ⟨w.id, some w.cmd, _, _⟩) hplace ?_
      · intro f hf hcmd
        rw [St.hash_transationEnd]
        cases error with
        | none => exact St.absent_bufferProcessReply (hfree f hf hcmd) (inv.absent f hf hcmd) w.cmd
        | some e =>
          exact St.absent_bufferProcessError (hfree f hf hcmd) (inv.absent f hf hcmd) e.1 e.2 w.cmd
      · intro hcmd hsuccess
        have hpurge : w.cmd = .purge := Option.some.inj hcmd
        rw [hpurge] at hsuccess
        cases error with
        | none => simp [St.bufferProcessReply] at hsuccess
        | some e => simp [St.bufferProcessError] at hsuccess
  · cases hstep

theorem Inv.step {event : Event K R} (inv : u.Inv) (hok : u.StepOk cfg event)
    (hstep : u.step cfg event = some u') : u'.Inv := by
  cases event with
  | taskNotify id cmd t => exact inv.taskNotify hok hstep
  | replyNotify place t error => exact inv.replyNotify hok hstep
  | refuse id =>
    rw [CacheUnit.step] at hstep
    split at hstep
    · cases hstep
    next hid =>
      cases hstep
      exact inv.enterAnswer (a := ⟨id, none, false, false⟩) hid fun hcmd => by cases hcmd
  | admin id ops answer =>
    rw [CacheUnit.step] at hstep
    split at hstep
    · cases hstep
    next hcond =>
      rw [not_or, Bool.not_eq_false] at hcond
      obtain ⟨pool, hrun, rfl⟩ := Option.map_eq_some_iff.mp hstep
      have hpool := inv.setPool (clears_ops hcond.2 hok inv.absent hrun)
      cases answer with
      | some success =>
        exact hpool.enterAnswer (a := ⟨id, none, success, false⟩) hcond.1 fun hcmd => by cases hcmd
      | none => exact hpool.enterAway hcond.1 fun x hx => by cases hx
  | adminReply place ops success =>
    rw [CacheUnit.step] at hstep
    split at hstep
    next id hplace =>
      split at hstep
      · cases hstep
      next hops =>
        rw [Bool.not_eq_false] at hops
        obtain ⟨pool, hrun, rfl⟩ := Option.map_eq_some_iff.mp hstep
        exact (inv.setPool (clears_ops hops hok inv.absent hrun)).leaveAway
          (a := ⟨id, none, success, false⟩) hplace fun hcmd => by cases hcmd
    · cases hstep
  | completeRow place =>
    rw [CacheUnit.step] at hstep
    split at hstep
    · cases hstep
    next f hplace =>
      have hmem := mem_of_getElem? hplace
      split at hstep
      · cases hstep
        refine inv.leaveFlush (a := ⟨f.wait.id, some f.wait.cmd, f.ok, _⟩) hplace
          (fun hcmd _ => ?_) rfl
        dsimp only
        rw [Pool.find, inv.absent f hmem (Option.some.inj hcmd)]
        rfl
      next hne =>
        cases hstep
        exact inv.setFlush hplace (by have := inv.positive f hmem; omega)
  | internal op =>
    rw [CacheUnit.step] at hstep
    split at hstep
    next hop =>
      obtain ⟨pool, hpool, rfl⟩ := Option.map_eq_some_iff.mp hstep
      exact inv.setPool (clears_internal hop hok inv.absent hpool)
    · cases hstep

/-- The unit before any task, with the contents of the cache. -/
def start (pool : Pool K R) : CacheUnit K R := ⟨pool, [], [], [], []⟩

/-- Each task that has entered was answered once, or waits for one flush request that has rows left,
or is away once. A Purge that was answered with success had removed its key. -/
structure AnsweredOnce (u : CacheUnit K R) : Prop where
  once : ∀ id ∈ u.arrived, u.answered id + u.waiting id + u.gone id = 1
  never : ∀ id ∉ u.arrived, u.answered id = 0
  answeredAll : u.flushes = [] → u.away = [] → ∀ id ∈ u.arrived, u.answered id = 1
  waits : ∀ f ∈ u.flushes, 0 < f.numReq
  purged : ∀ a ∈ u.answers, a.cmd = some .purge → a.success = true → a.inCache = false

omit [DecidableEq K] in
theorem Inv.answeredOnce (inv : u.Inv) : u.AnsweredOnce := by
  have honce (id : Nat) (hid : id ∈ u.arrived) : u.answered id + u.waiting id + u.gone id = 1 :=
    (inv.once id).trans (if_pos hid)
  refine ⟨honce, fun id hid => ?_, fun hflushes haway id hid => ?_, inv.positive, inv.purged⟩
  · have := inv.once id
    rw [if_neg hid] at this
    omega
  · have := honce id hid
    rw [waiting, gone, hflushes, haway] at this
    exact this

/-- Whatever the cache holds, each task gets one answer along every run in which a dirty node is
flushed for a Flush or a Purge only, and then has a row to wait for. -/
theorem run_answeredOnce (cfg : Config) (pool : Pool K R) (events : List (Event K R))
    (hok : AlongRun (step cfg) (StepOk cfg) (start pool) events)
    (hrun : runOps (step cfg) (start pool) events = some u) : u.AnsweredOnce := by
  have hinit : (start pool).Inv :=
    ⟨fun _ => rfl, fun x hx => (not_mem_nil hx).elim, fun f hf => (not_mem_nil hf).elim,
      fun f hf => (not_mem_nil hf).elim, fun a ha => (not_mem_nil ha).elim⟩
  have hinv :=
    invariant_run_along (fun _ _ _ inv hok hstep => inv.step hok hstep) hinit events hok hrun
  exact hinv.answeredOnce

/-- A row that is inserted, and purged when it is flushed. -/
theorem run_answeredOnce_purge : ∃ u, runOps (step asyncConfig) (start (Pool.init : Pool Nat Nat))
    [.taskNotify 1 .insert plainTask, .taskNotify 2 .purge plainTask, .completeRow 0] = some u ∧
      u.AnsweredOnce ∧ u.answered 2 = 1 := by
  have hok : AlongRun (step asyncConfig) (StepOk asyncConfig) (start (Pool.init : Pool Nat Nat))
      [.taskNotify 1 .insert plainTask, .taskNotify 2 .purge plainTask, .completeRow 0] := by
    refine ⟨⟨trivial, fun f hf => (not_mem_nil hf).elim⟩,
      fun u hu => ⟨⟨⟨⟨?_, ?_⟩, fun _ => ⟨rfl, ?_, ?_⟩⟩,
      fun f hf => ?_⟩, fun u _ => ⟨trivial, fun u _ => trivial⟩⟩⟩
    all_goals cases hu
    · decide
    · intro h
      cases h
    · decide
    · intro n hn
      cases hn
    · exact (not_mem_nil hf).elim
  obtain ⟨u, hu⟩ : ∃ u, runOps (step asyncConfig) (start (Pool.init : Pool Nat Nat))
      [.taskNotify 1 .insert plainTask, .taskNotify 2 .purge plainTask, .completeRow 0] = some u :=
    ⟨_, rfl⟩
  refine ⟨u, hu, run_answeredOnce asyncConfig _ _ hok hu, ?_⟩
  cases hu
  decide

/-- An update for which memory is short marks the node dirty without a dirty row. The Purge behind
it is answered twice, with success, and its key stays. -/
theorem run_answersTwice : ∃ u, runOps (step asyncConfig) (start (Pool.init : Pool Nat Nat))
    [.taskNotify 1 .insert plainTask, .taskNotify 2 .flush plainTask, .completeRow 0,
      .taskNotify 3 .update { plainTask with failAt := some 0 }, .taskNotify 4 .purge plainTask] =
        some u ∧
      u.answered 4 = 2 ∧
        (u.answers.any fun a => a.id = 4 ∧ a.success = true ∧ a.inCache = true) = true ∧
      ¬ u.AnsweredOnce := by
  refine ⟨_, rfl, by decide, by decide, fun h => ?_⟩
  have hone := h.once 4 (by decide)
  revert hone
  decide

end CacheUnit

end ISearch.BufferProcess
