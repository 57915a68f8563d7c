import Mathlib.Logic.Relation
import ScatterGather.Worker.Run

/-! # A run as a path of small steps

The worker's calls are cut at the points where an incident can strike or where something is decided.
A `Juncture` names such a point, together with what the worker holds in its hands there; `Step` lists
what can happen between two of them. Every call follows a path of steps, so that what each step
keeps holds throughout every run, in the middle of a call as well.
-/
namespace ScatterGather

inductive Errand where
  | start
  | advance
deriving DecidableEq, Repr

/-- Where the worker stands. -/
inductive Juncture where
  | rest
  | ready
  | due (k : Errand) (p : Progress)
  /-- The drained window was retired, and no window is active. -/
  | turned (k : Errand) (p : Progress) (start : BatchPlace)
  /-- The platform has answered the demand for a window with these pages. -/
  | asked (k : Errand) (p : Progress) (start : BatchPlace) (pages : List Page)
  | supplied (k : Errand) (p : Progress) (start : BatchPlace) (w : Window)
  | handed (k : Errand) (p : Progress)
  | released (k : Errand) (p : Progress)
  /-- The platform has answered the wish for the window at byte `next` with these pages. -/
  | askedAhead (k : Errand) (p : Progress) (next : Nat) (pages : List Page)
  | broken (k : Errand) (cause : Failure)
  | told (k : Errand)
  | closing (k : Errand)

/-- Incidents can strike here. -/
def Juncture.Exposed : Juncture → Prop
  | rest | asked .. | handed .. | askedAhead .. | told _ => True
  | _ => False

namespace Request

def windowLen (r : Request) (settings : Settings) (next : Nat) : Nat :=
  min (r.len - next) settings.fullWindow

def windowRun (r : Request) (settings : Settings) (next : Nat) : PageRun :=
  .covering (r.host + next) (r.windowLen settings next) settings.pageSize

def windowRegion (r : Request) (settings : Settings) (next : Nat) (pages : List Page) : Region where
  start := r.host + next
  len := r.windowLen settings next
  direction := r.direction
  pageSize := settings.pageSize
  pages
  valid := true

end Request

namespace Machine
variable {σ : Type}

/-- The listener has been told, and what it does is still to come. -/
def told (m : Machine σ) (outcome : Outcome) : Machine σ :=
  { m.record (.notify m.channel.payloadForTransfer outcome) with listener := m.listener.tail }

theorem notify_eq (m : Machine σ) (outcome : Outcome) :
    m.notify outcome = (m.told outcome).incurAll (m.listener.headD []) := by
  cases h : m.listener <;> simp [notify, told, record, incurAll, h]

variable [Platform σ]

/-- The platform has answered, and what happened meanwhile is still to come. -/
def asked (m : Machine σ) (range : PageRun) (writable : Bool) : Machine σ :=
  let answer := Platform.lock m.platform range writable
  { m with platform := answer.platform }.record (.lock range writable answer.pages)

def wrote (m : Machine σ) (offset : Nat) (value : UInt32) : Machine σ :=
  { m with
    registers := m.registers.write offset value
    platform := (Platform.written m.platform offset value).2 }.record (.write offset value)

theorem lock_eq (m : Machine σ) (range : PageRun) (writable : Bool) :
    m.lock range writable =
      ((Platform.lock m.platform range writable).pages,
        (m.asked range writable).incurAll (Platform.lock m.platform range writable).incidents) := rfl

theorem writeAt_eq (m : Machine σ) (offset : Nat) (value : UInt32) :
    m.writeAt offset value =
      (m.wrote offset value).incurAll (Platform.written m.platform offset value).1 := rfl

end Machine

namespace Station
variable {σ : Type}

def activate (s : Station σ) (r : Region) : Station σ :=
  { s with worker := { s.worker with
    pipeline := { s.worker.pipeline with active := some { region := r } } } }

def promote (s : Station σ) (r : Region) : Station σ :=
  { s with worker := { s.worker with
    pipeline := { s.worker.pipeline with active := some { region := r }, next := none } } }

def begin (s : Station σ) (request : Request) : Station σ :=
  let resumed := s.worker.ring.resume s.machine request.direction
  { worker := { s.worker with ring := resumed.1, transfer := some { request }, phase := .draining }
    machine := resumed.2 }

def count (s : Station σ) (pages : Nat) : Station σ :=
  { s with machine := s.machine.countLocked pages }

/-- Where the bytes end that the active window has, counted from the start of the request. -/
def reach (s : Station σ) (p : Progress) : Nat :=
  p.sent + (s.worker.pipeline.active.map Window.left).getD 0

variable [Platform σ]

def turn (s : Station σ) : Station σ where
  worker := { s.worker with pipeline := { s.worker.pipeline with
    done := s.worker.pipeline.active.map Window.region, active := none } }
  machine := (s.worker.pipeline.unpinDone s.machine).2

def answer (s : Station σ) (r : Request) (next : Nat) : LockAnswer σ :=
  Platform.lock s.machine.platform (r.windowRun s.settings next) r.direction.writesHost

def ask (s : Station σ) (r : Request) (next : Nat) : Station σ :=
  { s with machine := s.machine.asked (r.windowRun s.settings next) r.direction.writesHost }

def decline (s : Station σ) (pages : List Page) : Station σ :=
  { s with machine := s.machine.unlock pages false }

/-- A batch is handed over, up to the write of its last id. -/
def issue (s : Station σ) (p : Progress) (start : BatchPlace) (entries : List Entry) : Station σ :=
  let staged := s.worker.ring.stage s.machine p.request.direction start entries
  let bytes := Entry.total entries
  { worker := { s.worker with
      ring := staged.1
      pipeline := s.worker.pipeline.consume bytes
      transfer := some { p with sent := p.sent + bytes } }
    machine := staged.2.wrote (Register.address p.request.direction .lastId)
      (UInt32.ofNat (Ring.lastIdOf start entries)) }

def release (s : Station σ) : Station σ :=
  let released := s.worker.pipeline.unpinDone s.machine
  { worker := { s.worker with pipeline := released.1 }, machine := released.2 }

def keepNext (s : Station σ) (r : Region) : Station σ :=
  { s with worker := { s.worker with pipeline := s.worker.pipeline.keepNext r } }

def tell (s : Station σ) (phase : Phase) (outcome : Outcome) : Station σ :=
  let s := s.reset phase
  { s with machine := s.machine.told outcome }

end Station

def Progress.past (p : Progress) (entries : List Entry) : Progress :=
  { p with sent := p.sent + Entry.total entries }

/-- One step of a worker in a world whose incidents are all of `A`. The calls that stop the worker or
set the payload are made only as `H` allows. -/
inductive Step {σ : Type} [Platform σ] (A : Incident → Prop) (H : Act → Worker → Prop) :
    Juncture × Station σ → Juncture × Station σ → Prop
  | strike {j s i} : j.Exposed → A i → Step A H (j, s) (j, s.strike i)
  | interrupt {s} (status) : Step A H (.rest, s) (.rest, s.mapChannel fun c => (c.interrupt status).2)
  | setPayload {s payload} : H (.setPayload payload) s.worker →
      Step A H (.rest, s) (.rest, s.mapChannel ({ · with payload }))
  | stop {s} : H .stop s.worker → Step A H (.rest, s) (.rest, s.stop)
  | finish {s} : H .finish s.worker → Step A H (.rest, s) (.rest, s.finish)
  | serve {s} : Step A H (.rest, s) (.ready, s)
  | leave {s} : Step A H (.ready, s) (.rest, s)
  | drained {s} : s.takeWork.1 = none → Step A H (.ready, s) (.rest, s.takeWork.2)
  | begin {s r} : s.takeWork.1 = some (.start r) →
      Step A H (.ready, s) (.due .start { request := r }, s.takeWork.2.begin r)
  | resume {s p} : s.takeWork.1 = some .advance → s.worker.transfer = some p →
      Step A H (.ready, s) (.due .advance p, s.takeWork.2)
  | stale {s} : s.takeWork.1 = some .advance → s.worker.transfer = none →
      Step A H (.ready, s) (.closing .advance, s.takeWork.2)
  | complete {k p s} : p.remaining = 0 →
      Step A H (.due k p, s) (.told k, s.tell .idle (.completed p.request.len))
  | refuse {k p s e} : p.remaining ≠ 0 → s.worker.ring.start? p.request.direction = .error e →
      Step A H (.due k p, s) (.broken k (.batch e), s)
  | keep {k p s start w} : p.remaining ≠ 0 →
      s.worker.ring.start? p.request.direction = .ok start →
      s.worker.pipeline.active = some w → w.left ≠ 0 →
      Step A H (.due k p, s) (.supplied k p start w, s)
  | turn {k p s start} : p.remaining ≠ 0 →
      s.worker.ring.start? p.request.direction = .ok start → s.worker.pipeline.drained →
      Step A H (.due k p, s) (.turned k p start, s.turn)
  | promote {k p s start r} : s.worker.pipeline.next = some r →
      Step A H (.turned k p start, s) (.supplied k p start { region := r }, s.promote r)
  | unpinnable {k p s start} : s.worker.pipeline.next = none →
      ¬ Machine.Pinnable (p.request.host + p.sent) (p.request.windowLen s.settings p.sent) →
      Step A H (.turned k p start, s) (.broken k (.memory .invalidRange), s)
  | ask {k p s start} : s.worker.pipeline.next = none →
      Machine.Pinnable (p.request.host + p.sent) (p.request.windowLen s.settings p.sent) →
      Step A H (.turned k p start, s)
        (.asked k p start (s.answer p.request p.sent).pages, s.ask p.request p.sent)
  | short {k p s start pages} : pages.length < (p.request.windowRun s.settings p.sent).pages →
      Step A H (.asked k p start pages, s)
        (.broken k (.memory (.partialLock (p.request.windowRun s.settings p.sent).pages pages.length)),
          s.decline pages)
  | pinned {k p s start pages} : (p.request.windowRun s.settings p.sent).pages ≤ pages.length →
      Step A H (.asked k p start pages, s)
        (.supplied k p start { region := p.request.windowRegion s.settings p.sent pages },
          (s.count (p.request.windowRun s.settings p.sent).pages).activate
            (p.request.windowRegion s.settings p.sent pages))
  | uncarved {k p s start w e} :
      w.carve s.settings p.request.direction (p.request.device + p.sent) start = .error e →
      Step A H (.supplied k p start w, s) (.broken k e, s)
  | issue {k p s start w entries} :
      w.carve s.settings p.request.direction (p.request.device + p.sent) start = .ok entries →
      Step A H (.supplied k p start w, s) (.handed k (p.past entries), s.issue p start entries)
  | release {k p s} : Step A H (.handed k p, s) (.released k p, s.release)
  | skip {k p s} : s.worker.pipeline.next.isSome ∨ p.request.len ≤ s.reach p →
      Step A H (.released k p, s) (.closing k, s)
  | unpinnableAhead {k p s} : s.worker.pipeline.next = none →
      ¬ Machine.Pinnable (p.request.host + s.reach p) (p.request.windowLen s.settings (s.reach p)) →
      Step A H (.released k p, s) (.closing k, s)
  | askAhead {k p s} : s.worker.pipeline.next = none → s.reach p < p.request.len →
      Machine.Pinnable (p.request.host + s.reach p) (p.request.windowLen s.settings (s.reach p)) →
      Step A H (.released k p, s)
        (.askedAhead k p (s.reach p) (s.answer p.request (s.reach p)).pages,
          s.ask p.request (s.reach p))
  | shortAhead {k p s next pages} :
      pages.length < (p.request.windowRun s.settings next).pages →
      Step A H (.askedAhead k p next pages, s) (.closing k, s.decline pages)
  | keepNext {k p s next pages} :
      (p.request.windowRun s.settings next).pages ≤ pages.length →
      Step A H (.askedAhead k p next pages, s)
        (.closing k,
          (s.count (p.request.windowRun s.settings next).pages).keepNext
            (p.request.windowRegion s.settings next pages))
  | fail {k cause s} : Step A H (.broken k cause, s) (.told k, s.tell .fault (.failed cause))
  | heard {k s} : Step A H (.told k, s) (.closing k, s)
  | closeStart {s} : Step A H (.closing .start, s) (.ready, s)
  | closeAdvance {s} :
      Step A H (.closing .advance, s) (.ready, s.mapChannel Channel.closeAdvance)

abbrev Path {σ : Type} [Platform σ] (A : Incident → Prop) (H : Act → Worker → Prop) :
    Juncture × Station σ → Juncture × Station σ → Prop := Relation.ReflTransGen (Step A H)

end ScatterGather
