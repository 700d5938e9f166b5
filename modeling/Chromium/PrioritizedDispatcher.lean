import Chromium.PriorityQueue
import Chromium.Runs

/-!
# The prioritized dispatcher

Jobs are started at once when the limits permit, and wait in a priority queue otherwise. A finished
job or new limits start waiting jobs, the first of the highest priority each time.
-/
namespace Chromium.PrioritizedDispatcher

open PriorityQueue Runs

variable {n : ℕ} {Job : Type}

/-! ### Limits -/

/-- `PrioritizedDispatcher::Limits`, with what `SetLimits` checks. -/
structure Limits (n : ℕ) where
  totalJobs : ℕ
  reservedSlots : List ℕ
  length_eq : reservedSlots.length = n
  sum_le : reservedSlots.sum ≤ totalJobs

/-- `max_running_jobs_`, which does not fall from one priority to the next. -/
@[ext]
structure Thresholds (n : ℕ) where
  values : List ℕ
  length_eq : values.length = n
  sorted : values.Pairwise (· ≤ ·)

def Thresholds.get (t : Thresholds n) (p : Fin n) : ℕ := t.values.get (p.cast t.length_eq.symm)

lemma Thresholds.get_mono (t : Thresholds n) {p q : Fin n} (h : p ≤ q) : t.get p ≤ t.get q := by
  rcases h.eq_or_lt with rfl | hlt
  · exact le_rfl
  · exact List.pairwise_iff_get.mp t.sorted _ _ hlt

/-- The first loop of `SetLimits`, in which `total` grows. -/
def accumulate (total : ℕ) : List ℕ → List ℕ
  | [] => []
  | slots :: rest => (total + slots) :: accumulate (total + slots) rest

lemma length_accumulate (total : ℕ) (slots : List ℕ) :
    (accumulate total slots).length = slots.length := by
  induction slots generalizing total with
  | nil => rfl
  | cons s slots ih => rw [accumulate, List.length_cons, List.length_cons, ih]

lemma le_of_mem_accumulate {total x : ℕ} {slots : List ℕ} (h : x ∈ accumulate total slots) :
    total ≤ x := by
  induction slots generalizing total with
  | nil => cases h
  | cons s slots ih =>
    rcases List.mem_cons.mp h with rfl | h
    · exact Nat.le_add_right _ _
    · exact le_trans (Nat.le_add_right _ _) (ih h)

lemma sorted_accumulate (total : ℕ) (slots : List ℕ) :
    (accumulate total slots).Pairwise (· ≤ ·) := by
  induction slots generalizing total with
  | nil => exact .nil
  | cons s slots ih => exact .cons (fun x hx => le_of_mem_accumulate hx) (ih _)

/-- The thresholds that `SetLimits` computes. Unreserved slots are available for all priorities. -/
def Limits.thresholds (limits : Limits n) : Thresholds n where
  values := (accumulate 0 limits.reservedSlots).map
    (· + (limits.totalJobs - limits.reservedSlots.sum))
  length_eq := by rw [List.length_map, length_accumulate, limits.length_eq]
  sorted := (sorted_accumulate 0 limits.reservedSlots).map _ fun _ _ h => Nat.add_le_add_right h _

/-- The loop of `GetLimits`: every element but the first, less the one before it. -/
def differences : List ℕ → List ℕ
  | x :: y :: rest => (y - x) :: differences (y :: rest)
  | _ => []

lemma length_differences (x : ℕ) (rest : List ℕ) :
    (differences (x :: rest)).length = rest.length := by
  induction rest generalizing x with
  | nil => rfl
  | cons y rest ih => rw [differences, List.length_cons, List.length_cons, ih]

lemma sum_differences {x : ℕ} {rest : List ℕ} (h : (x :: rest).Pairwise (· ≤ ·)) :
    (differences (x :: rest)).sum + x = (x :: rest).getLast (List.cons_ne_nil _ _) := by
  induction rest generalizing x with
  | nil => exact Nat.zero_add x
  | cons y rest ih =>
    have hxy : x ≤ y := List.rel_of_pairwise_cons h List.mem_cons_self
    have hrest := ih h.of_cons
    rw [differences, List.sum_cons, List.getLast_cons (List.cons_ne_nil _ _), ← hrest]
    omega

lemma accumulate_differences {x : ℕ} {rest : List ℕ} (h : (x :: rest).Pairwise (· ≤ ·))
    (total : ℕ) :
    accumulate total (differences (x :: rest)) = rest.map fun z => z - x + total := by
  induction rest generalizing x total with
  | nil => rfl
  | cons y rest ih =>
    have hxy : x ≤ y := List.rel_of_pairwise_cons h List.mem_cons_self
    rw [differences, accumulate, ih h.of_cons, List.map_cons, add_comm total]
    congr 1
    refine List.map_congr_left fun z hz => ?_
    have hyz : y ≤ z := List.rel_of_pairwise_cons h.of_cons hz
    omega

/-! ### The dispatcher -/

/-- `started` is the sequence of the jobs on which `Start` was called. -/
structure Dispatcher (n : ℕ) (Job : Type) where
  queue : Queue n Job
  maxRunningJobs : Thresholds n
  numRunningJobs : ℕ
  started : List Job

namespace Dispatcher

def start (job : Job) (d : Dispatcher n Job) : Dispatcher n Job :=
  { d with numRunningJobs := d.numRunningJobs + 1, started := d.started ++ [job] }

/-- A null handle, or a handle to the job that waits. -/
def add (job : Job) (priority : Fin n) (d : Dispatcher n Job) :
    Option (Pointer n) × Dispatcher n Job :=
  if d.numRunningJobs < d.maxRunningJobs.get priority then (none, d.start job)
  else
    let inserted := d.queue.insert job priority
    (some inserted.1, { d with queue := inserted.2 })

def addAtHead (job : Job) (priority : Fin n) (d : Dispatcher n Job) :
    Option (Pointer n) × Dispatcher n Job :=
  if d.numRunningJobs < d.maxRunningJobs.get priority then (none, d.start job)
  else
    let inserted := d.queue.insertAtFront job priority
    (some inserted.1, { d with queue := inserted.2 })

def cancel (handle : Pointer n) (d : Dispatcher n Job) : Option (Dispatcher n Job) :=
  (d.queue.erase handle).map fun queue => { d with queue := queue }

def evictOldestLowest (d : Dispatcher n Job) : Option (Option Job × Dispatcher n Job) :=
  match d.queue.firstMin with
  | none => some (none, d)
  | some handle => (d.cancel handle).map fun d' => (d.queue.value handle, d')

/-- Whether the job was dispatched, and the dispatcher then. -/
def maybeDispatchJob (handle : Pointer n) (jobPriority : Fin n) (d : Dispatcher n Job) :
    Option (Bool × Dispatcher n Job) :=
  if d.maxRunningJobs.get jobPriority ≤ d.numRunningJobs then some (false, d)
  else
    (d.queue.value handle).bind fun job =>
      (d.queue.erase handle).map fun queue => (true, { d with queue := queue }.start job)

def maybeDispatchNextJob (d : Dispatcher n Job) : Option (Bool × Dispatcher n Job) :=
  match d.queue.firstMax with
  | none => if d.queue.size = 0 then some (false, d) else none
  | some handle => d.maybeDispatchJob handle handle.priority

/-- There is no result when a job is in the queue that the limits permit to start. -/
def changePriority (handle : Pointer n) (priority : Fin n) (d : Dispatcher n Job) :
    Option (Option (Pointer n) × Dispatcher n Job) :=
  if d.maxRunningJobs.get handle.priority ≤ d.numRunningJobs then
    if handle.priority = priority then some (some handle, d)
    else
      (d.maybeDispatchJob handle priority).bind fun dispatched =>
        if dispatched.1 then some (none, dispatched.2)
        else
          (dispatched.2.queue.value handle).bind fun job =>
            (dispatched.2.queue.erase handle).map fun queue =>
              let inserted := queue.insert job priority
              (some inserted.1, { dispatched.2 with queue := inserted.2 })
  else none

def onJobFinished (d : Dispatcher n Job) : Option (Dispatcher n Job) :=
  if 0 < d.numRunningJobs then
    ({ d with numRunningJobs := d.numRunningJobs - 1 }.maybeDispatchNextJob).map Prod.snd
  else none

/-- There are no limits when there are no priorities. -/
def getLimits (d : Dispatcher n Job) : Option (Limits n) :=
  match h : d.maxRunningJobs.values with
  | [] => none
  | first :: rest =>
    some {
      totalJobs := (first :: rest).getLast (List.cons_ne_nil _ _)
      reservedSlots := 0 :: differences (first :: rest)
      length_eq := by
        rw [← d.maxRunningJobs.length_eq, h, List.length_cons, length_differences,
          List.length_cons]
      sum_le := by
        have hsorted := d.maxRunningJobs.sorted
        rw [h] at hsorted
        have hsum := sum_differences hsorted
        rw [List.sum_cons]
        omega }

/-- The loop of `SetLimits`. -/
def dispatchLoop : ℕ → Dispatcher n Job → Option (Dispatcher n Job)
  | 0, _ => none
  | fuel + 1, d =>
    d.maybeDispatchNextJob.bind fun dispatched =>
      if dispatched.1 then dispatchLoop fuel dispatched.2 else some dispatched.2

def setLimits (limits : Limits n) (d : Dispatcher n Job) : Option (Dispatcher n Job) :=
  dispatchLoop (d.queue.size + 1) { d with maxRunningJobs := limits.thresholds }

/-- The state in which the constructor calls `SetLimits`. -/
def constructed (n : ℕ) : Dispatcher n Job where
  queue := .new n
  maxRunningJobs := ⟨List.replicate n 0, by simp, List.pairwise_replicate_of_refl⟩
  numRunningJobs := 0
  started := []

/-- No job waits that the limits permit to start. -/
def Settled (d : Dispatcher n Job) : Prop :=
  ∀ p, d.queue.lists p ≠ [] → d.maxRunningJobs.get p ≤ d.numRunningJobs

/-- The jobs that were started and those that wait. -/
def jobs (d : Dispatcher n Job) : Multiset Job := (d.started : Multiset Job) + d.queue.values

/-- One job was started from the queue, in front of which no other stood. -/
def StartsFirst (d d' : Dispatcher n Job) : Prop :=
  ∃ p e behind, d.queue.lists p = e :: behind ∧ (∀ q, p < q → d.queue.lists q = []) ∧
    d.numRunningJobs < d.maxRunningJobs.get p ∧
    d'.queue.lists = Function.update d.queue.lists p behind ∧
    d'.maxRunningJobs = d.maxRunningJobs ∧ d'.numRunningJobs = d.numRunningJobs + 1 ∧
    d'.started = d.started ++ [e.value]

section Steps
variable {d d' : Dispatcher n Job} {handle : Pointer n} {priority : Fin n} {job : Job}

lemma jobs_start (job : Job) (d : Dispatcher n Job) (queue : Queue n Job) :
    ({ d with queue := queue }.start job).jobs =
      (d.started : Multiset Job) + job ::ₘ queue.values := by
  show ((d.started ++ [job] : List Job) : Multiset Job) + queue.values = _
  rw [← Multiset.coe_add, Multiset.coe_singleton, add_assoc, Multiset.singleton_add]

/-! ### Starting jobs from the queue -/

lemma maybeDispatchJob_spec (h : d.queue.Holds handle) (priority : Fin n) :
    (d.maxRunningJobs.get priority ≤ d.numRunningJobs ∧
      d.maybeDispatchJob handle priority = some (false, d)) ∨
    (d.numRunningJobs < d.maxRunningJobs.get priority ∧
      ∃ job queue, d.queue.value handle = some job ∧ d.queue.erase handle = some queue ∧
        d.maybeDispatchJob handle priority = some (true, { d with queue := queue }.start job)) := by
  obtain ⟨e, before, behind, -, -, hvalue, queue, hqueue, -⟩ := h.split
  unfold maybeDispatchJob
  split_ifs with hle
  · exact .inl ⟨hle, rfl⟩
  · refine .inr ⟨Nat.lt_of_not_le hle, e.value, queue, hvalue, hqueue, ?_⟩
    rw [hvalue, hqueue]
    rfl

/-- Nothing is dispatched when nothing can be, since the thresholds do not fall. -/
lemma maybeDispatchNextJob_spec (d : Dispatcher n Job) :
    (d.maybeDispatchNextJob = some (false, d) ∧ d.Settled) ∨
    ∃ d', d.maybeDispatchNextJob = some (true, d') ∧ d.StartsFirst d' ∧ d'.jobs = d.jobs ∧
      d'.queue.size < d.queue.size := by
  unfold maybeDispatchNextJob
  cases hmax : d.queue.firstMax with
  | none =>
    have hnil := Queue.firstMax_eq_none.mp hmax
    left
    dsimp only
    rw [if_pos (Queue.size_of_lists hnil)]
    exact ⟨rfl, fun p hp => absurd (hnil p) hp⟩
  | some handle =>
    obtain ⟨hfront, hhigher⟩ := Queue.firstMax_eq_some hmax
    have hholds := Queue.holds_of_front hfront
    obtain ⟨hle, heq⟩ | ⟨hlt, job, queue, hvalue, herase, heq⟩ :=
      maybeDispatchJob_spec (d := d) hholds handle.priority
    · left
      refine ⟨heq, fun p hp => le_trans (d.maxRunningJobs.get_mono ?_) hle⟩
      by_contra hnot
      exact hp (hhigher p (lt_of_not_ge hnot))
    · right
      refine ⟨_, heq, ?_, ?_, ?_⟩
      · obtain ⟨e, behind, hlist, rfl, hlists⟩ := Queue.erase_front hfront herase hvalue
        exact ⟨handle.priority, e, behind, hlist, hhigher, hlt, hlists, rfl, rfl, rfl⟩
      · rw [jobs_start, jobs, Queue.values_of_erase herase hvalue]
      · exact Queue.size_of_erase herase

lemma dispatchLoop_spec (fuel : ℕ) (d : Dispatcher n Job) (h : d.queue.size < fuel) :
    ∃ d', dispatchLoop fuel d = some d' ∧ d'.Settled ∧
      Relation.ReflTransGen StartsFirst d d' ∧ d'.jobs = d.jobs := by
  induction fuel generalizing d with
  | zero => omega
  | succ fuel ih =>
    rw [dispatchLoop]
    rcases maybeDispatchNextJob_spec d with ⟨heq, hsettled⟩ | ⟨t, heq, hstarts, hjobs, hsize⟩
    · exact ⟨d, by rw [heq]; rfl, hsettled, .refl, rfl⟩
    · obtain ⟨d', hloop, hsettled, hreaches, hjobs'⟩ := ih t (by omega)
      exact ⟨d', by rw [heq]; exact hloop, hsettled, .head hstarts hreaches, hjobs'.trans hjobs⟩

lemma StartsFirst.ne_nil (h : d.StartsFirst d') {q : Fin n} (hq : d'.queue.lists q ≠ []) :
    d.queue.lists q ≠ [] := by
  obtain ⟨p, e, behind, hlist, -, -, hlists, -⟩ := h
  by_cases heq : q = p
  · rw [heq, hlist]
    exact List.cons_ne_nil _ _
  · rwa [hlists, Function.update_of_ne heq] at hq

/-! ### What the calls do -/

lemma Settled.add (h : d.Settled) (job : Job) (priority : Fin n) :
    (d.add job priority).2.Settled := by
  unfold Dispatcher.add
  split_ifs with hlt
  · exact fun p hp => Nat.le_succ_of_le (h p hp)
  · intro p hp
    by_cases heq : p = priority
    · rw [heq]
      exact Nat.le_of_not_lt hlt
    · dsimp only at hp
      rw [Queue.lists_insert, Function.update_of_ne heq] at hp
      exact h p hp

lemma Settled.addAtHead (h : d.Settled) (job : Job) (priority : Fin n) :
    (d.addAtHead job priority).2.Settled := by
  unfold Dispatcher.addAtHead
  split_ifs with hlt
  · exact fun p hp => Nat.le_succ_of_le (h p hp)
  · intro p hp
    by_cases heq : p = priority
    · rw [heq]
      exact Nat.le_of_not_lt hlt
    · dsimp only at hp
      rw [Queue.lists_insertAtFront, Function.update_of_ne heq] at hp
      exact h p hp

lemma jobs_add (d : Dispatcher n Job) (job : Job) (priority : Fin n) :
    (d.add job priority).2.jobs = job ::ₘ d.jobs := by
  unfold Dispatcher.add
  split_ifs
  · exact (jobs_start job d d.queue).trans (Multiset.add_cons _ _ _)
  · rw [jobs, Queue.values_insert, Multiset.add_cons, jobs]

lemma jobs_addAtHead (d : Dispatcher n Job) (job : Job) (priority : Fin n) :
    (d.addAtHead job priority).2.jobs = job ::ₘ d.jobs := by
  unfold Dispatcher.addAtHead
  split_ifs
  · exact (jobs_start job d d.queue).trans (Multiset.add_cons _ _ _)
  · rw [jobs, Queue.values_insertAtFront, Multiset.add_cons, jobs]

lemma cancel_spec (hsettled : d.Settled) (h : d.queue.Holds handle) :
    ∃ d', d.cancel handle = some d' ∧ d'.Settled ∧ d'.jobs ≤ d.jobs := by
  obtain ⟨e, before, behind, -, -, hvalue, queue, herase, -⟩ := h.split
  refine ⟨_, by rw [cancel, herase]; rfl, fun p hp => ?_, ?_⟩
  · exact hsettled p (Queue.ne_nil_of_erase herase hp)
  · rw [jobs, jobs, Queue.values_of_erase herase hvalue]
    exact add_le_add_right (Multiset.le_cons_self _ _) _

lemma evictOldestLowest_spec (hsettled : d.Settled) :
    ∃ result, d.evictOldestLowest = some result ∧ result.2.Settled ∧ result.2.jobs ≤ d.jobs := by
  unfold evictOldestLowest
  cases hmin : d.queue.firstMin with
  | none => exact ⟨_, rfl, hsettled, le_rfl⟩
  | some handle =>
    obtain ⟨d', hcancel, hsettled', hjobs⟩ :=
      cancel_spec hsettled (Queue.holds_of_firstMin hmin)
    refine ⟨(d.queue.value handle, d'), ?_, hsettled', hjobs⟩
    dsimp only
    rw [hcancel, Option.map_some]

/-- The check passes, since a job that waits may not start. -/
lemma changePriority_spec (hsettled : d.Settled) (h : d.queue.Holds handle) (priority : Fin n) :
    ∃ result, d.changePriority handle priority = some result ∧ result.2.Settled ∧
      result.2.jobs = d.jobs := by
  obtain ⟨e, before, behind, hlist, -, hvalue, queue, herase, -⟩ := h.split
  have hcheck : d.maxRunningJobs.get handle.priority ≤ d.numRunningJobs :=
    hsettled _ (by rw [hlist]; simp)
  have hvalues := Queue.values_of_erase herase hvalue
  unfold changePriority
  rw [if_pos hcheck]
  split_ifs with hsame
  · exact ⟨_, rfl, hsettled, rfl⟩
  obtain ⟨hle, heq⟩ | ⟨hlt, job, queue', hvalue', herase', heq⟩ :=
    maybeDispatchJob_spec (d := d) h priority
  · refine ⟨(some (queue.insert e.value priority).1,
      { d with queue := (queue.insert e.value priority).2 }), ?_, fun p hp => ?_, ?_⟩
    · rw [heq, Option.bind_some, if_neg Bool.false_ne_true, hvalue, Option.bind_some, herase]
      rfl
    · by_cases hp' : p = priority
      · rw [hp']
        exact hle
      · dsimp only at hp
        rw [Queue.lists_insert, Function.update_of_ne hp'] at hp
        exact hsettled p (Queue.ne_nil_of_erase herase hp)
    · rw [jobs, jobs, Queue.values_insert, hvalues]
  · refine ⟨_, by rw [heq]; rfl, fun p hp => ?_, ?_⟩
    · exact Nat.le_succ_of_le (hsettled p (Queue.ne_nil_of_erase herase' hp))
    · dsimp only
      rw [jobs_start, jobs, Queue.values_of_erase herase' hvalue']

lemma onJobFinished_spec (h : 0 < d.numRunningJobs) (hsettled : d.Settled) :
    ∃ d', d.onJobFinished = some d' ∧ d'.Settled ∧ d'.jobs = d.jobs ∧
      Relation.ReflTransGen StartsFirst { d with numRunningJobs := d.numRunningJobs - 1 } d' := by
  unfold onJobFinished
  rw [if_pos h]
  rcases maybeDispatchNextJob_spec { d with numRunningJobs := d.numRunningJobs - 1 } with
    ⟨heq, hsettled'⟩ | ⟨d', heq, hstarts, hjobs, -⟩
  · exact ⟨_, by rw [heq]; rfl, hsettled', rfl, .refl⟩
  · refine ⟨d', by rw [heq]; rfl, fun q hq => ?_, hjobs, .single hstarts⟩
    -- the number of running jobs is again what it was
    have hne : d.queue.lists q ≠ [] := hstarts.ne_nil hq
    obtain ⟨-, -, -, -, -, -, -, hmax, hnum, -⟩ := hstarts
    rw [hmax, hnum]
    dsimp only
    rw [Nat.sub_add_cancel h]
    exact hsettled q hne

lemma setLimits_spec (limits : Limits n) (d : Dispatcher n Job) :
    ∃ d', d.setLimits limits = some d' ∧ d'.Settled ∧ d'.jobs = d.jobs ∧
      Relation.ReflTransGen StartsFirst { d with maxRunningJobs := limits.thresholds } d' := by
  obtain ⟨d', hloop, hsettled, hreaches, hjobs⟩ :=
    dispatchLoop_spec (d.queue.size + 1) { d with maxRunningJobs := limits.thresholds }
      (Nat.lt_succ_self _)
  exact ⟨d', hloop, hsettled, hjobs, hreaches⟩

lemma thresholds_of_getLimits {limits : Limits n} (h : d.getLimits = some limits) :
    limits.thresholds = d.maxRunningJobs := by
  apply Thresholds.ext
  have hsorted := d.maxRunningJobs.sorted
  unfold getLimits at h
  split at h
  · cases h
  · next first rest hvalues =>
    cases h
    rw [hvalues] at hsorted
    refine Eq.trans ?_ hvalues.symm
    have hsum := sum_differences hsorted
    have hspare : (first :: rest).getLast (List.cons_ne_nil _ _) -
        (0 :: differences (first :: rest)).sum = first := by
      rw [List.sum_cons]
      omega
    dsimp only [Limits.thresholds]
    rw [hspare, accumulate, accumulate_differences hsorted, List.map_cons, List.map_map]
    congr 1
    · simp
    · refine (List.map_congr_left fun z hz => ?_).trans (List.map_id _)
      have hle : first ≤ z := List.rel_of_pairwise_cons hsorted hz
      simp only [Function.comp_apply, id]
      omega

/-- The limits that are read give the same thresholds, and no job may start then. -/
lemma setLimits_getLimits (hsettled : d.Settled) {limits : Limits n}
    (h : d.getLimits = some limits) : d.setLimits limits = some d := by
  have hthresholds : limits.thresholds = d.maxRunningJobs := thresholds_of_getLimits h
  have hnext : d.maybeDispatchNextJob = some (false, d) := by
    rcases maybeDispatchNextJob_spec d with ⟨heq, -⟩ | ⟨d', -, hstarts, -⟩
    · exact heq
    · obtain ⟨p, e, behind, hlist, -, hlt, -⟩ := hstarts
      have hle := hsettled p (by rw [hlist]; exact List.cons_ne_nil _ _)
      omega
  rw [setLimits, hthresholds, dispatchLoop, hnext]
  rfl

end Steps

end Dispatcher

/-! ### Runs -/

/-- The calls of the users. -/
inductive Call (n : ℕ) (Job : Type)
  | add (job : Job) (priority : Fin n)
  | addAtHead (job : Job) (priority : Fin n)
  | cancel (handle : Pointer n)
  | evictOldestLowest
  | changePriority (handle : Pointer n) (priority : Fin n)
  | onJobFinished
  | setLimits (limits : Limits n)

namespace Call

def apply (d : Dispatcher n Job) : Call n Job → Option (Dispatcher n Job)
  | add job priority => some (d.add job priority).2
  | addAtHead job priority => some (d.addAtHead job priority).2
  | cancel handle => d.cancel handle
  | evictOldestLowest => d.evictOldestLowest.map Prod.snd
  | changePriority handle priority => (d.changePriority handle priority).map Prod.snd
  | onJobFinished => d.onJobFinished
  | setLimits limits => d.setLimits limits

/-- A handle is to a job that waits, and a job that finishes is running. -/
def Legal (d : Dispatcher n Job) : Call n Job → Prop
  | cancel handle => d.queue.Holds handle
  | changePriority handle _ => d.queue.Holds handle
  | onJobFinished => 0 < d.numRunningJobs
  | _ => True

/-- The job that the call hands over. -/
def added : Call n Job → Option Job
  | add job _ => some job
  | addAtHead job _ => some job
  | _ => none

end Call

/-- A call of a user that keeps to the rules. -/
def Called (d : Dispatcher n Job) (call : Call n Job) (d' : Dispatcher n Job) : Prop :=
  call.Legal d ∧ call.apply d = some d'

section Runs
variable {limits : Limits n} {calls : List (Call n Job)} {call : Call n Job}
  {d d' : Dispatcher n Job}

/-- A call that keeps to the rules passes its checks. -/
lemma Call.spec (hsettled : d.Settled) (hlegal : call.Legal d) :
    ∃ d', call.apply d = some d' ∧ d'.Settled ∧
      d'.jobs ≤ (call.added.toList : Multiset Job) + d.jobs := by
  cases call with
  | add job priority =>
    exact ⟨_, rfl, hsettled.add job priority, (Dispatcher.jobs_add d job priority).le⟩
  | addAtHead job priority =>
    exact ⟨_, rfl, hsettled.addAtHead job priority, (Dispatcher.jobs_addAtHead d job priority).le⟩
  | cancel handle =>
    obtain ⟨d', happly, hsettled', hjobs⟩ := Dispatcher.cancel_spec hsettled hlegal
    exact ⟨d', happly, hsettled', by simpa [added] using hjobs⟩
  | evictOldestLowest =>
    obtain ⟨result, happly, hsettled', hjobs⟩ := Dispatcher.evictOldestLowest_spec hsettled
    exact ⟨result.2, by rw [apply, happly]; rfl, hsettled', by simpa [added] using hjobs⟩
  | changePriority handle priority =>
    obtain ⟨result, happly, hsettled', hjobs⟩ :=
      Dispatcher.changePriority_spec hsettled hlegal priority
    exact ⟨result.2, by rw [apply, happly]; rfl, hsettled', by simp [added, hjobs]⟩
  | onJobFinished =>
    obtain ⟨d', happly, hsettled', hjobs, -⟩ := Dispatcher.onJobFinished_spec hlegal hsettled
    exact ⟨d', happly, hsettled', by simp [added, hjobs]⟩
  | setLimits limits =>
    obtain ⟨d', happly, hsettled', hjobs, -⟩ := Dispatcher.setLimits_spec limits d
    exact ⟨d', happly, hsettled', by simp [added, hjobs]⟩

/-- What holds after each call. -/
structure Kept (calls : List (Call n Job)) (d : Dispatcher n Job) : Prop where
  settled : d.Settled
  jobs : d.jobs ≤ (calls.filterMap Call.added : Multiset Job)

lemma Kept.called (h : Kept calls d) (hcalled : Called d call d') : Kept (calls ++ [call]) d' := by
  obtain ⟨t, happly, hsettled, hjobs⟩ := Call.spec h.settled hcalled.1
  obtain rfl : t = d' := Option.some.inj (happly.symm.trans hcalled.2)
  refine ⟨hsettled, le_trans hjobs ?_⟩
  have hlast : [call].filterMap Call.added = call.added.toList := by
    cases hadded : call.added <;> simp [hadded]
  rw [List.filterMap_append, hlast, ← Multiset.coe_add, add_comm]
  exact add_le_add_left h.jobs _

lemma kept_of_run {first : Dispatcher n Job} (hfirst : (Dispatcher.constructed n).setLimits limits =
    some first) (h : Reaches Called first calls d) : Kept calls d := by
  induction h with
  | refl =>
    obtain ⟨d', hset, hsettled, hjobs, -⟩ :=
      Dispatcher.setLimits_spec limits (Dispatcher.constructed n : Dispatcher n Job)
    obtain rfl : d' = first := Option.some.inj (hset.symm.trans hfirst)
    refine ⟨hsettled, ?_⟩
    rw [hjobs]
    simp [Dispatcher.jobs, Dispatcher.constructed]
  | snoc _ hcalled ih => exact ih.called hcalled

/-- After each call no job waits that may start, so every call that keeps to the rules passes its
checks. A job is started or waits at most as often as it was added. Finished jobs and new limits
start the first job of the highest priority each time, and the limits that are read change
nothing. -/
theorem dispatcher_keeps_order {limits : Limits n} {calls : List (Call n Job)}
    {first d : Dispatcher n Job}
    (hfirst : (Dispatcher.constructed n).setLimits limits = some first)
    (hrun : Reaches Called first calls d) :
    d.Settled ∧ (∀ call : Call n Job, call.Legal d → ∃ d', call.apply d = some d') ∧
      (d.started : Multiset Job) + d.queue.values ≤ (calls.filterMap Call.added : Multiset Job) ∧
      (∀ d', d.onJobFinished = some d' →
        Relation.ReflTransGen Dispatcher.StartsFirst
          { d with numRunningJobs := d.numRunningJobs - 1 } d') ∧
      (∀ (limits : Limits n) (d' : Dispatcher n Job), d.setLimits limits = some d' →
        Relation.ReflTransGen Dispatcher.StartsFirst
          { d with maxRunningJobs := limits.thresholds } d') ∧
      ∀ limits : Limits n, d.getLimits = some limits →
        limits.thresholds = d.maxRunningJobs ∧ d.setLimits limits = some d := by
  have hkept := kept_of_run hfirst hrun
  refine ⟨hkept.settled, fun call hlegal => ?_, hkept.jobs, fun d' h => ?_, fun limits d' h => ?_,
    fun limits h => ?_⟩
  · obtain ⟨d', happly, -⟩ := Call.spec hkept.settled hlegal
    exact ⟨d', happly⟩
  · have hpos : 0 < d.numRunningJobs := by
      by_contra hnot
      rw [Dispatcher.onJobFinished, if_neg hnot] at h
      cases h
    obtain ⟨t, hfinished, -, -, hstarts⟩ := Dispatcher.onJobFinished_spec hpos hkept.settled
    rwa [← Option.some.inj (hfinished.symm.trans h)]
  · obtain ⟨t, hset, -, -, hstarts⟩ := Dispatcher.setLimits_spec limits d
    rwa [← Option.some.inj (hset.symm.trans h)]
  · exact ⟨Dispatcher.thresholds_of_getLimits h, Dispatcher.setLimits_getLimits hkept.settled h⟩

end Runs

/-- One job at a time. -/
def oneJob : Limits 2 := ⟨1, [0, 0], rfl, by decide⟩

/-- A dispatcher for one job at a time. -/
def oneAtATime : Dispatcher 2 ℕ := ((Dispatcher.constructed 2).setLimits oneJob).get (by decide)

/-- A second job waits for the first. -/
def secondWaits : Dispatcher 2 ℕ := ((oneAtATime.add 7 0).2.add 8 1).2

/-- The first job finishes and the second is started. -/
theorem dispatcher_keeps_order_oneJob :
    (secondWaits.onJobFinished.get (by decide)).Settled ∧
      (secondWaits.onJobFinished.get (by decide)).started = [7, 8] := by
  have hwaits : Reaches Called oneAtATime [.add 7 0, .add 8 1] secondWaits :=
    .cons (t := (oneAtATime.add 7 0).2) ⟨trivial, rfl⟩ (.cons ⟨trivial, rfl⟩ .refl)
  have hrun : Reaches Called oneAtATime ([.add 7 0, .add 8 1] ++ [.onJobFinished])
      (secondWaits.onJobFinished.get (by decide)) := by
    refine .snoc hwaits ⟨?_, (Option.some_get _).symm⟩
    show 0 < secondWaits.numRunningJobs
    decide
  have hfirst : (Dispatcher.constructed 2).setLimits oneJob = some oneAtATime :=
    (Option.some_get _).symm
  exact ⟨(dispatcher_keeps_order hfirst hrun).1, by decide⟩

end Chromium.PrioritizedDispatcher
