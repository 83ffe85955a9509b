import FastTts.Bytes
import FastTts.Runs
import Mathlib.Data.List.Count

/-!
# The coalescer of warm requests

`queue_llm_warm`, `begin_llm_generation`, `end_llm_generation` and the warm worker share
`llm_warm_mutex_`. One step is one region in which the mutex is held, so calls may fall into every
gap between two regions: while a worker settles, while it posts, and between the decrement of
`end_llm_generation` and its notification. The lists `queued` and `dispatched` are history; no
step reads them.
-/

namespace FastTts.LlmWarm

/-- Where a worker thread stands while it does not hold the mutex. A `.woken` worker has left
the wait and competes for the mutex. -/
inductive Worker
  | starting
  | waiting
  | woken
  | settling
  | posting (body : Bytes)
  | exited
  deriving DecidableEq, Repr

structure State where
  pending : Bytes
  workerRunning : Bool
  generationsActive : ℕ
  notifying : ℕ
  workers : List Worker
  queued : List Bytes
  dispatched : List Bytes
  deriving Repr

def initial : State := ⟨[], false, 0, 0, [], [], []⟩

inductive Action
  | queue (body : Bytes)
  | beginGeneration
  | endGeneration
  | notify
  | spuriousWake (i : ℕ)
  | worker (i : ℕ)

def Worker.wake : Worker → Worker
  | .waiting => .woken
  | w => w

def notifyAll (s : State) : State := { s with workers := s.workers.map Worker.wake }

def queueLlmWarm (s : State) (body : Bytes) : State :=
  let t := { notifyAll s with pending := body, queued := s.queued ++ [body] }
  if s.workerRunning then t
  else { t with workerRunning := true, workers := t.workers ++ [.starting] }

/-- The top of the worker's loop, entered with the mutex held. -/
def loopHead (s : State) (i : ℕ) : State :=
  if s.pending = [] then { s with workerRunning := false, workers := s.workers.set i .exited }
  else if 0 < s.generationsActive then { s with workers := s.workers.set i .waiting }
  else { s with workers := s.workers.set i .settling }

def takeBody (s : State) (i : ℕ) : State :=
  if s.pending = [] ∨ 0 < s.generationsActive then loopHead s i
  else { s with
    pending := []
    workers := s.workers.set i (.posting s.pending)
    dispatched := s.dispatched ++ [s.pending] }

def workerStep (s : State) (i : ℕ) : Option State :=
  match s.workers[i]? with
  | some .starting => some (loopHead s i)
  | some .woken => some (loopHead s i)
  | some .settling => some (takeBody s i)
  | some (.posting _) => some (loopHead s i)
  | _ => none

def step (s : State) : Action → Option State
  | .queue body => some (queueLlmWarm s body)
  | .beginGeneration => some { s with generationsActive := s.generationsActive + 1 }
  | .endGeneration =>
    if 0 < s.generationsActive then
      some { s with
        generationsActive := s.generationsActive - 1
        notifying := s.notifying + 1 }
    else none
  | .notify =>
    if 0 < s.notifying then some { notifyAll s with notifying := s.notifying - 1 } else none
  | .spuriousWake i =>
    if s.workers[i]? = some .waiting then some { s with workers := s.workers.set i .woken }
    else none
  | .worker i => workerStep s i

/-- Queued bodies are never empty; an empty `llm_warm_pending_` means that nothing is queued. -/
def NonEmptyBodies (_ : State) : Action → Prop
  | .queue body => body ≠ []
  | _ => True

def Worker.isLive : Worker → Bool
  | .exited => false
  | _ => true

def Worker.isPosting : Worker → Bool
  | .posting _ => true
  | _ => false

/-- The next region of this worker reads `llm_warm_pending_`. -/
def Worker.looksNext : Worker → Bool
  | .waiting => false
  | .exited => false
  | _ => true

def liveCount (ws : List Worker) : ℕ := ws.countP Worker.isLive

@[simp] theorem isLive_wake (w : Worker) : w.wake.isLive = w.isLive := by cases w <;> rfl

@[simp] theorem liveCount_wake (ws : List Worker) :
    liveCount (ws.map Worker.wake) = liveCount ws := by
  simp only [liveCount, List.countP_map, Function.comp_def, isLive_wake]

variable {ws : List Worker} {i : ℕ} {w : Worker} {s s' : State}

theorem liveCount_set_live {w' : Worker} (hi : ws[i]? = some w) (hw : w.isLive) (hw' : w'.isLive) :
    liveCount (ws.set i w') = liveCount ws := by
  obtain ⟨hlt, rfl⟩ := List.getElem?_eq_some_iff.mp hi
  have hpos : 0 < ws.countP Worker.isLive :=
    List.countP_pos_iff.mpr ⟨ws[i], List.getElem_mem hlt, hw⟩
  simp only [liveCount, List.countP_set hlt, hw, hw', if_true]
  omega

theorem liveCount_set_exited (hi : ws[i]? = some w) (hw : w.isLive) :
    liveCount (ws.set i .exited) = liveCount ws - 1 := by
  obtain ⟨hlt, rfl⟩ := List.getElem?_eq_some_iff.mp hi
  have hx : Worker.exited.isLive = false := rfl
  simp only [liveCount, List.countP_set hlt, hw, hx, if_true, Bool.false_eq_true, if_false]
  omega

theorem waiting_notMem_wake (ws : List Worker) : Worker.waiting ∉ ws.map Worker.wake := by
  intro h
  obtain ⟨w, _, hw⟩ := List.mem_map.mp h
  cases w <;> cases hw

theorem waiting_mem_of_set (hw : w ≠ .waiting) (h : Worker.waiting ∈ ws.set i w) :
    Worker.waiting ∈ ws :=
  (List.mem_or_eq_of_mem_set h).resolve_right (fun he => hw he.symm)

/-- What the mutex protects, between any two regions. -/
structure Inv (s : State) : Prop where
  live : liveCount s.workers = if s.workerRunning then 1 else 0
  running : s.pending ≠ [] → s.workerRunning = true
  newest : s.pending ≠ [] → s.queued.getLast? = some s.pending
  served : s.pending = [] → s.dispatched.getLast? = s.queued.getLast?
  wakeup : s.pending ≠ [] → .waiting ∈ s.workers → 0 < s.generationsActive ∨ 0 < s.notifying

theorem inv_initial : Inv initial := by
  constructor <;> simp [initial, liveCount]

theorem workerStep_cases (h : workerStep s i = some s') :
    ∃ w, s.workers[i]? = some w ∧ w.looksNext ∧
      (s' = loopHead s i ∨ w = .settling ∧ s' = takeBody s i) := by
  unfold workerStep at h
  split at h
  next hw => exact ⟨_, hw, rfl, .inl (Option.some.inj h).symm⟩
  next hw => exact ⟨_, hw, rfl, .inl (Option.some.inj h).symm⟩
  next hw => exact ⟨_, hw, rfl, .inr ⟨rfl, (Option.some.inj h).symm⟩⟩
  next hw => exact ⟨_, hw, rfl, .inl (Option.some.inj h).symm⟩
  next => cases h

theorem isLive_of_looksNext (h : w.looksNext) : w.isLive := by
  cases w <;> first | rfl | cases h

theorem inv_loopHead (hs : Inv s) (hi : s.workers[i]? = some w) (hw : w.looksNext) :
    Inv (loopHead s i) := by
  have hlive := isLive_of_looksNext hw
  have hrun : s.workerRunning = true := by
    by_contra hr
    have h0 : liveCount s.workers = 0 := by simpa [hr] using hs.live
    exact List.countP_eq_zero.mp h0 w (List.mem_of_getElem? hi) hlive
  unfold loopHead
  by_cases hp : s.pending = []
  · rw [if_pos hp]
    refine ⟨?_, fun h => absurd hp h, fun h => absurd hp h, hs.served, fun h => absurd hp h⟩
    have h1 : liveCount s.workers = 1 := by simpa [hrun] using hs.live
    simp [liveCount_set_exited hi hlive, h1]
  · rw [if_neg hp]
    by_cases ha : 0 < s.generationsActive
    · rw [if_pos ha]
      refine ⟨?_, hs.running, hs.newest, hs.served, fun _ _ => .inl ha⟩
      exact (liveCount_set_live hi hlive rfl).trans hs.live
    · rw [if_neg ha]
      refine ⟨?_, hs.running, hs.newest, hs.served, fun h hm => hs.wakeup h ?_⟩
      · exact (liveCount_set_live hi hlive rfl).trans hs.live
      · exact waiting_mem_of_set (by simp) hm

theorem inv_takeBody (hs : Inv s) (hi : s.workers[i]? = some .settling) : Inv (takeBody s i) := by
  unfold takeBody
  split_ifs with h
  · exact inv_loopHead hs hi rfl
  · obtain ⟨hp, _⟩ := not_or.mp h
    refine ⟨?_, fun h => absurd rfl h, fun h => absurd rfl h, fun _ => ?_, fun h => absurd rfl h⟩
    · exact (liveCount_set_live hi rfl rfl).trans hs.live
    · simp [hs.newest hp]

theorem inv_queueLlmWarm (hs : Inv s) {body : Bytes} (hb : body ≠ []) :
    Inv (queueLlmWarm s body) := by
  unfold queueLlmWarm
  dsimp only [notifyAll]
  by_cases hr : s.workerRunning
  · rw [if_pos hr]
    refine ⟨?_, fun _ => hr, fun _ => by simp, fun h => absurd h hb, fun _ hm => ?_⟩
    · exact (liveCount_wake s.workers).trans hs.live
    · exact absurd hm (waiting_notMem_wake _)
  · rw [if_neg hr]
    refine ⟨?_, fun _ => rfl, fun _ => by simp, fun h => absurd h hb, fun _ hm => ?_⟩
    · have h0 : liveCount s.workers = 0 := by simpa [hr] using hs.live
      have hsplit : liveCount (s.workers.map Worker.wake ++ [.starting]) =
          liveCount (s.workers.map Worker.wake) + 1 := by
        simp only [liveCount, List.countP_append]
        rfl
      rw [hsplit, liveCount_wake, h0]
      rfl
    · rcases List.mem_append.mp hm with hm | hm
      · exact absurd hm (waiting_notMem_wake _)
      · simp at hm

theorem inv_step {a : Action} (hs : Inv s) (hb : NonEmptyBodies s a) (h : step s a = some s') :
    Inv s' := by
  cases a with
  | queue body =>
    obtain rfl := Option.some.inj h
    exact inv_queueLlmWarm hs hb
  | beginGeneration =>
    obtain rfl := Option.some.inj h
    exact ⟨hs.live, hs.running, hs.newest, hs.served, fun _ _ => .inl (Nat.succ_pos _)⟩
  | endGeneration =>
    simp only [step] at h
    split_ifs at h
    obtain rfl := Option.some.inj h
    exact ⟨hs.live, hs.running, hs.newest, hs.served, fun _ _ => .inr (Nat.succ_pos _)⟩
  | notify =>
    simp only [step] at h
    split_ifs at h
    obtain rfl := Option.some.inj h
    refine ⟨?_, hs.running, hs.newest, hs.served, fun _ hm => absurd hm (waiting_notMem_wake _)⟩
    exact (liveCount_wake s.workers).trans hs.live
  | spuriousWake i =>
    simp only [step] at h
    split_ifs at h with hw
    obtain rfl := Option.some.inj h
    refine ⟨?_, hs.running, hs.newest, hs.served, fun hp hm => hs.wakeup hp ?_⟩
    · exact (liveCount_set_live hw rfl rfl).trans hs.live
    · exact waiting_mem_of_set (by simp) hm
  | worker i =>
    obtain ⟨w, hw, hl, rfl | ⟨rfl, rfl⟩⟩ := workerStep_cases h
    · exact inv_loopHead hs hw hl
    · exact inv_takeBody hs hw

theorem inv_of_reaches (h : Reaches step NonEmptyBodies initial s) : Inv s :=
  h.invariant inv_initial (fun _ _ _ hs hb hstep => inv_step hs hb hstep)

theorem pending_of_worker_posts {body : Bytes} (h : workerStep s i = some s')
    (hpost : s'.workers[i]? = some (.posting body)) :
    s.pending = body ∧ body ≠ [] ∧ s.generationsActive = 0 := by
  obtain ⟨w, hw, _, hs'⟩ := workerStep_cases h
  have hhead : (loopHead s i).workers[i]? ≠ some (.posting body) := by
    obtain ⟨hlt, _⟩ := List.getElem?_eq_some_iff.mp hw
    unfold loopHead
    split_ifs <;> simp [List.getElem?_set_self hlt]
  rcases hs' with rfl | ⟨_, rfl⟩
  · exact absurd hpost hhead
  · unfold takeBody at hpost
    split_ifs at hpost with hc
    · exact absurd hpost hhead
    · obtain ⟨hp, ha⟩ := not_or.mp hc
      obtain ⟨hlt, _⟩ := List.getElem?_eq_some_iff.mp hw
      have hb : s.pending = body := by simpa [List.getElem?_set_self hlt] using hpost
      exact ⟨hb, hb ▸ hp, by omega⟩

theorem looksNext_wake (h : w.isLive) : w.wake.looksNext := by
  cases w <;> first | rfl | cases h

theorem workerStep_isSome (hw : s.workers[i]? = some w) (h : w.looksNext) :
    (workerStep s i).isSome := by
  cases w <;> first | (simp [workerStep, hw]; done) | cases h

theorem exists_live_of_pending (hs : Inv s) (hp : s.pending ≠ []) :
    ∃ (i : ℕ) (w : Worker), s.workers[i]? = some w ∧ w.isLive := by
  have h1 : liveCount s.workers = 1 := by simpa [hs.running hp] using hs.live
  have hpos : 0 < s.workers.countP Worker.isLive := by
    change 0 < liveCount s.workers
    omega
  obtain ⟨w, hm, hw⟩ := List.countP_pos_iff.mp hpos
  obtain ⟨i, hi⟩ := List.mem_iff_getElem?.mp hm
  exact ⟨i, w, hi, hw⟩

theorem posting_le_one (hs : Inv s) : s.workers.countP Worker.isPosting ≤ 1 := by
  have hmono : s.workers.countP Worker.isPosting ≤ liveCount s.workers :=
    List.countP_mono_left (fun w _ hw => by cases w <;> first | rfl | cases hw)
  have hlive : liveCount s.workers ≤ 1 := by
    rw [hs.live]
    split_ifs <;> omega
  exact Nat.le_trans hmono hlive

/-- At most one warm request is in flight; a body is taken only while no generation is active and
is then the newest one queued; and a pending body has a worker that reads it again after the next
notification, which is due whenever that worker waits. -/
theorem warm_requests_coalesce {s : State} (h : Reaches step NonEmptyBodies initial s) :
    s.workers.countP Worker.isPosting ≤ 1 ∧
    (∀ i s' body, step s (.worker i) = some s' → s'.workers[i]? = some (.posting body) →
      s.queued.getLast? = some body ∧ s.generationsActive = 0) ∧
    (s.pending ≠ [] → s.workerRunning = true ∧
      ∃ (i : ℕ) (w : Worker), s.workers[i]? = some w ∧ w.isLive ∧
        (∃ w', (notifyAll s).workers[i]? = some w' ∧ w'.looksNext ∧
          (step (notifyAll s) (.worker i)).isSome) ∧
        (w = .waiting → 0 < s.generationsActive ∨ 0 < s.notifying)) ∧
    (s.pending = [] → s.dispatched.getLast? = s.queued.getLast?) := by
  have hs := inv_of_reaches h
  refine ⟨posting_le_one hs, ?_, ?_, hs.served⟩
  · intro i s' body hstep hpost
    obtain ⟨hp, hb, ha⟩ := pending_of_worker_posts hstep hpost
    exact ⟨hp ▸ hs.newest (hp ▸ hb), ha⟩
  · intro hp
    obtain ⟨i, w, hi, hw⟩ := exists_live_of_pending hs hp
    have hi' : (notifyAll s).workers[i]? = some w.wake := by simp [notifyAll, hi]
    refine ⟨hs.running hp, i, w, hi, hw, ⟨w.wake, hi', looksNext_wake hw, ?_⟩, ?_⟩
    · exact workerStep_isSome hi' (looksNext_wake hw)
    · rintro rfl
      exact hs.wakeup hp (List.mem_of_getElem? hi)

/-- One body in flight and a newer one held back by a generation. -/
def heldBack : State := ⟨[0x62], true, 1, 0, [.posting [0x61]], [[0x61], [0x62]], [[0x61]]⟩

def nonEmptyBody : Action → Bool
  | .queue body => !body.isEmpty
  | _ => true

theorem reaches_heldBack : Reaches step NonEmptyBodies initial heldBack := by
  have hok : ∀ s a, nonEmptyBody a = true → NonEmptyBodies s a := by
    intro s a h
    cases a with
    | queue body => simpa [nonEmptyBody, NonEmptyBodies] using h
    | _ => trivial
  exact Reaches.of_replay hok
    [.queue [0x61], .worker 0, .worker 0, .beginGeneration, .queue [0x62]] .start rfl

theorem warm_requests_coalesce_heldBack :
    heldBack.workers.countP Worker.isPosting ≤ 1 ∧ heldBack.workerRunning = true := by
  have h := warm_requests_coalesce reaches_heldBack
  exact ⟨h.1, (h.2.2.1 (by decide)).1⟩

end FastTts.LlmWarm
