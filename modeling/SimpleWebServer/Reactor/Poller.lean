import SimpleWebServer.Lib.Runs
import SimpleWebServer.Lib.Tables
import SimpleWebServer.Reactor.Channel
import Mathlib.Data.Finset.Card

/-!
# The poller

`Epoll` keeps the descriptors that are registered with the kernel, and a vector for the
events that `epoll_wait` reports.  Every `update_channel` resizes the vector to the number
of registered descriptors.  The loop over the reported events runs handlers, which update
and destroy channels, and goes on up to the number that `epoll_wait` returned.
-/

namespace SimpleWebServer.Reactor

open SimpleWebServer.Lib SimpleWebServer.Lib.Runs

/-- `epoll_event`; `data.ptr` is the channel. -/
structure EpollEvent where
  ch : Nat
  events : EventType → Bool

/-- What the kernel keeps for a descriptor of its interest list. -/
structure Registration where
  ch : Nat
  interest : Interest

/-- The operations of `epoll_ctl`. -/
inductive Ctl where
  | add
  | mod
  | del
  deriving DecidableEq, Repr

/-- The kernel adds what is not in its interest list, and changes and deletes what is. -/
def Ctl.Accepts (op : Ctl) (entry : Option Registration) : Prop :=
  match op with
  | .add => entry.isSome = false
  | .mod => entry.isSome = true
  | .del => entry.isSome = true

instance (op : Ctl) (entry : Option Registration) : Decidable (op.Accepts entry) :=
  match op with
  | .add => inferInstanceAs (Decidable (entry.isSome = false))
  | .mod => inferInstanceAs (Decidable (entry.isSome = true))
  | .del => inferInstanceAs (Decidable (entry.isSome = true))

/-- `Epoll::Impl` with the kernel's side of `epoll_fd`. -/
structure Epoll where
  fdSet : Finset Nat := ∅
  eventList : List EpollEvent := []
  registered : Nat → Option Registration := fun _ => none

namespace Epoll

/-- `epoll_ctl`; a descriptor must be open. -/
def epollCtl (poller : Epoll) (op : Ctl) (fd : Nat) (isOpen : Bool)
    (entry : Option Registration) : Except Ctl Epoll :=
  if isOpen = true ∧ op.Accepts (poller.registered fd) then
    .ok { poller with registered := Function.update poller.registered fd entry }
  else .error op

/-- `event_list.resize(size)`; a new event is zero, and so is its pointer. -/
def resize (poller : Epoll) (size : Nat) : Epoll :=
  { poller with
    eventList := poller.eventList.take size ++
      List.replicate (size - poller.eventList.length) ⟨0, fun _ => false⟩ }

/-- `Epoll::Impl::update_channel` -/
def updateChannel (poller : Epoll) (ch fd : Nat) (interest : Interest) (isOpen : Bool) :
    Except Ctl Epoll := do
  let op : Ctl := if fd ∈ poller.fdSet then .mod else .add
  let poller ← poller.epollCtl op fd isOpen (some ⟨ch, interest⟩)
  let poller := { poller with fdSet := insert fd poller.fdSet }
  return poller.resize poller.fdSet.card

/-- `Epoll::Impl::remove_channel` -/
def removeChannel (poller : Epoll) (fd : Nat) (isOpen : Bool) : Except Ctl Epoll :=
  if fd ∈ poller.fdSet then do
    let poller ← poller.epollCtl .del fd isOpen none
    return { poller with fdSet := poller.fdSet.erase fd }
  else return poller

/-- The kernel forgets a descriptor that is closed. -/
def close (poller : Epoll) (fd : Nat) : Epoll :=
  { poller with registered := Function.update poller.registered fd none }

/--
What `epoll_wait` can report: descriptors that are armed, with events that were asked for, or
with an error that is neither of the two.
-/
def Reports (poller : Epoll) (reports : List (Nat × (EventType → Bool))) : Prop :=
  reports.length ≤ poller.eventList.length ∧ (reports.map Prod.fst).Nodup ∧
    ∀ report ∈ reports, ∃ entry ∈ poller.registered report.1,
      entry.interest.Armed ∧ entry.interest.Allows report.2

instance (poller : Epoll) (reports : List (Nat × (EventType → Bool))) :
    Decidable (poller.Reports reports) :=
  inferInstanceAs (Decidable (_ ∧ _ ∧ _))

/-- `epoll_wait` writes the events, and disarms the one-shot registrations among them. -/
def wait (poller : Epoll) (reports : List (Nat × (EventType → Bool))) : Epoll :=
  { poller with
    eventList := (reports.filterMap fun report =>
      (poller.registered report.1).map fun entry => ⟨entry.ch, report.2⟩) ++
        poller.eventList.drop reports.length
    registered := fun fd =>
      if fd ∈ reports.map Prod.fst then
        (poller.registered fd).map fun entry => { entry with interest := entry.interest.reported }
      else poller.registered fd }

end Epoll

/-- A channel with its descriptor. -/
structure OwnedChannel (Cb : Type) where
  fd : Nat
  channel : Channel Cb

/-- Where `poll` is. -/
inductive PollPhase where
  | idle
  /-- at the head of the loop, with `i` and `n_event` -/
  | dispatching (i nEvent : Nat)
  /-- in the `handle_event` of the iteration for the channel at `ch` -/
  | handling (i nEvent ch : Nat)
  deriving DecidableEq, Repr

/-- User code runs between two calls of `poll` and inside `handle_event`. -/
def PollPhase.userRuns : PollPhase → Bool
  | .dispatching _ _ => false
  | _ => true

/-- The size that `event_list` needs for the iterations that are still to come. -/
def PollPhase.needs : PollPhase → Nat
  | .idle => 0
  | .dispatching i nEvent => if i < nEvent then nEvent else 0
  | .handling i nEvent _ => if i + 1 < nEvent then nEvent else 0

/-- A poller, the channels of its loop, and the open descriptors. -/
structure PollRun (Cb : Type) where
  poller : Epoll := {}
  channels : Nat → Option (OwnedChannel Cb) := fun _ => none
  /-- the address of the next channel; none is at the null pointer -/
  made : Nat := 1
  isOpen : Nat → Bool := fun _ => false
  phase : PollPhase := .idle
  /-- the operation that the kernel refused; `assertm` throws -/
  refused : Option Ctl := none

namespace PollRun

variable {Cb : Type}

inductive Event (Cb : Type) where
  /-- the program opens a descriptor -/
  | opens (fd : Nat)
  /-- `get_channel(fd)`, for a descriptor that no other channel owns -/
  | getChannel (fd : Nat)
  /-- `is_once = true` -/
  | once (ch : Nat)
  /-- `enable_event(et, cb)`; without a callback it asserts that there is one -/
  | enableEvent (ch : Nat) (et : EventType) (cb : Option Cb)
  /-- `disable_event(et)` -/
  | disableEvent (ch : Nat) (et : EventType)
  /-- `~Channel`, which closes the descriptor -/
  | destroy (ch : Nat)
  /-- `poll` is called and `epoll_wait` returns -/
  | poll (reports : List (Nat × (EventType → Bool)))
  /-- an iteration up to `handle_event` -/
  | iterate
  /-- `handle_event` returns -/
  | handled
  /-- the loop ends -/
  | finish

/-- A living channel owns the descriptor. -/
def Owned (s : PollRun Cb) (fd : Nat) : Prop :=
  ∃ ch < s.made, ∃ owned ∈ s.channels ch, owned.fd = fd

instance (s : PollRun Cb) (fd : Nat) : Decidable (s.Owned fd) :=
  inferInstanceAs (Decidable (∃ ch < s.made, _))

/-- `EventLoop::update_channel` behind a change of the channel at `ch` -/
def update (s : PollRun Cb) (ch : Nat) (owned : OwnedChannel Cb) : PollRun Cb :=
  let s := { s with channels := Function.update s.channels ch (some owned) }
  match s.poller.updateChannel ch owned.fd owned.channel.interest (s.isOpen owned.fd) with
  | .ok poller => { s with poller := poller }
  | .error op => { s with refused := some op }

/-- `~Channel` -/
def destroy (s : PollRun Cb) (ch : Nat) (owned : OwnedChannel Cb) : PollRun Cb :=
  match s.poller.removeChannel owned.fd (s.isOpen owned.fd) with
  | .ok poller =>
      { s with
        poller := poller.close owned.fd
        channels := Function.update s.channels ch none
        isOpen := Function.update s.isOpen owned.fd false }
  | .error op => { s with refused := some op }

/-- The channel with the event enabled. -/
def enabled (channel : Channel Cb) (et : EventType) : Option Cb → Option (Channel Cb)
  | some cb => some (channel.enableEvent et cb)
  | none =>
      if assertm : (channel.cbArr et).isSome = true then some (channel.enableAgain et assertm)
      else none

/-- A change of a channel through its address, which may be a stale one. -/
def onChannel (s : PollRun Cb) (ch : Nat) (change : Channel Cb → Channel Cb) : PollRun Cb :=
  { s with
    channels := Function.update s.channels ch
      ((s.channels ch).map fun owned => { owned with channel := change owned.channel }) }

/--
The step of an event.  An iteration for a channel that was destroyed is not defined by the
source; it changes no channel here, and user code may run in it as in any other.
-/
def act (s : PollRun Cb) : Event Cb → Option (PollRun Cb)
  | .opens fd =>
      if s.phase.userRuns = true ∧ s.isOpen fd = false then
        some { s with isOpen := Function.update s.isOpen fd true }
      else none
  | .getChannel fd =>
      if s.phase.userRuns = true ∧ s.isOpen fd = true ∧ ¬ s.Owned fd then
        some { s with
          channels := Function.update s.channels s.made (some ⟨fd, .new⟩)
          made := s.made + 1 }
      else none
  | .once ch =>
      if s.phase.userRuns = true ∧ (s.channels ch).isSome = true then
        some (s.onChannel ch fun channel => { channel with isOnce := true })
      else none
  | .enableEvent ch et cb =>
      if s.phase.userRuns = true then
        (s.channels ch).bind fun owned =>
          (enabled owned.channel et cb).map fun channel => s.update ch ⟨owned.fd, channel⟩
      else none
  | .disableEvent ch et =>
      if s.phase.userRuns = true then
        (s.channels ch).map fun owned => s.update ch ⟨owned.fd, owned.channel.disableEvent et⟩
      else none
  | .destroy ch =>
      if s.phase.userRuns = true then (s.channels ch).map (s.destroy ch) else none
  | .poll reports =>
      if s.phase = .idle ∧ s.poller.Reports reports then
        some { s with
          poller := s.poller.wait reports
          phase := .dispatching 0 reports.length }
      else none
  | .iterate =>
      match s.phase with
      | .dispatching i nEvent =>
          if i < nEvent then
            (s.poller.eventList[i]?).map fun event =>
              { s.onChannel event.ch (·.triggerEvents event.events) with
                phase := .handling i nEvent event.ch }
          else none
      | _ => none
  | .handled =>
      match s.phase with
      | .handling i nEvent ch =>
          some { s.onChannel ch Channel.handled with phase := .dispatching (i + 1) nEvent }
      | _ => none
  | .finish =>
      match s.phase with
      | .dispatching i nEvent =>
          if i < nEvent then none else some { s with phase := .idle }
      | _ => none

/-- One step, while nothing was refused. -/
def step (s : PollRun Cb) (event : Event Cb) : Option (PollRun Cb) :=
  if s.refused = none then s.act event else none

/-- The index of the next iteration is one of `event_list`. -/
def InRange (s : PollRun Cb) : Prop :=
  match s.phase with
  | .dispatching i nEvent => i < nEvent → i < s.poller.eventList.length
  | _ => True

/-- `fd_set` is what the kernel has registered, it has refused nothing, and the index is valid. -/
structure Dispatches (s : PollRun Cb) : Prop where
  accepted : s.refused = none
  registered : ∀ fd, fd ∈ s.poller.fdSet ↔ (s.poller.registered fd).isSome = true
  inRange : s.InRange

/--
The condition on a step: an update inside the loop leaves a place in `event_list` for each
event that the loop still has to come to.
-/
def KeepsSize (s : PollRun Cb) : Event Cb → Prop
  | .enableEvent ch _ _ =>
      ∀ owned ∈ s.channels ch, s.phase.needs ≤ (insert owned.fd s.poller.fdSet).card
  | .disableEvent ch _ =>
      ∀ owned ∈ s.channels ch, s.phase.needs ≤ (insert owned.fd s.poller.fdSet).card
  | _ => True

instance (s : PollRun Cb) : DecidablePred s.KeepsSize
  | .enableEvent ch _ _ => inferInstanceAs (Decidable (∀ owned ∈ s.channels ch, _ ≤ _))
  | .disableEvent ch _ => inferInstanceAs (Decidable (∀ owned ∈ s.channels ch, _ ≤ _))
  | .opens _ => .isTrue trivial
  | .getChannel _ => .isTrue trivial
  | .once _ => .isTrue trivial
  | .destroy _ => .isTrue trivial
  | .poll _ => .isTrue trivial
  | .iterate => .isTrue trivial
  | .handled => .isTrue trivial
  | .finish => .isTrue trivial

end PollRun

/-! ## What is registered -/

namespace Epoll

/-- `fd_set` is what the kernel has registered. -/
def Same (poller : Epoll) : Prop :=
  ∀ fd, fd ∈ poller.fdSet ↔ (poller.registered fd).isSome = true

theorem same_new : ({} : Epoll).Same := by
  intro fd
  simp

/-- The kernel adds a new descriptor, and changes one that it knows. -/
theorem Same.updateChannel_eq {poller : Epoll} (same : poller.Same) (ch fd : Nat)
    (interest : Interest) :
    poller.updateChannel ch fd interest true = .ok
      (resize { poller with
        fdSet := insert fd poller.fdSet
        registered := Function.update poller.registered fd (some ⟨ch, interest⟩) }
        (insert fd poller.fdSet).card) := by
  have accepts : Ctl.Accepts (if fd ∈ poller.fdSet then .mod else .add)
      (poller.registered fd) := by
    by_cases known : fd ∈ poller.fdSet
    · rw [if_pos known]
      exact (same fd).mp known
    · rw [if_neg known]
      exact Bool.eq_false_iff.mpr fun there => known ((same fd).mpr there)
  rw [updateChannel, epollCtl, if_pos ⟨rfl, accepts⟩]
  rfl

/-- The kernel deletes what it knows, and is not asked to delete anything else. -/
theorem Same.removeChannel_eq {poller : Epoll} (same : poller.Same) (fd : Nat) :
    poller.removeChannel fd true = .ok
      { poller with
        fdSet := poller.fdSet.erase fd
        registered := Function.update poller.registered fd none } := by
  by_cases known : fd ∈ poller.fdSet
  · have accepts : Ctl.del.Accepts (poller.registered fd) := (same fd).mp known
    rw [removeChannel, if_pos known, epollCtl, if_pos ⟨rfl, accepts⟩]
    rfl
  · have absent : poller.registered fd = none := by
      rw [← Option.not_isSome_iff_eq_none]
      exact fun there => known ((same fd).mpr there)
    rw [removeChannel, if_neg known, Finset.erase_eq_of_notMem known,
      Function.update_eq_self_iff.mpr absent.symm]
    rfl

theorem Same.insert {poller : Epoll} (same : poller.Same) (fd : Nat) (entry : Registration)
    (eventList : List EpollEvent) :
    Same ⟨insert fd poller.fdSet, eventList,
      Function.update poller.registered fd (some entry)⟩ := by
  intro other
  change other ∈ Insert.insert fd poller.fdSet ↔
    (Function.update poller.registered fd (some entry) other).isSome = true
  rw [Finset.mem_insert]
  by_cases here : other = fd
  · simp [here]
  · rw [Function.update_of_ne here, ← same other]
    simp [here]

theorem Same.erase {poller : Epoll} (same : poller.Same) (fd : Nat)
    (eventList : List EpollEvent) :
    Same ⟨poller.fdSet.erase fd, eventList, Function.update poller.registered fd none⟩ := by
  intro other
  change other ∈ poller.fdSet.erase fd ↔
    (Function.update poller.registered fd none other).isSome = true
  rw [Finset.mem_erase]
  by_cases here : other = fd
  · simp [here]
  · rw [Function.update_of_ne here, ← same other]
    simp [here]

theorem Same.wait {poller : Epoll} (same : poller.Same)
    (reports : List (Nat × (EventType → Bool))) : (poller.wait reports).Same := by
  intro fd
  change fd ∈ poller.fdSet ↔ Option.isSome (if fd ∈ reports.map Prod.fst then _ else _) = true
  rw [same fd]
  split_ifs
  · rw [Option.isSome_map]
  · rfl

theorem length_resize (poller : Epoll) (size : Nat) :
    (poller.resize size).eventList.length = size := by
  rw [resize, List.length_append, List.length_take, List.length_replicate]
  omega

/-- `epoll_wait` writes as many events as it reports, into the places that are there. -/
theorem length_wait {poller : Epoll} {reports : List (Nat × (EventType → Bool))}
    (reported : poller.Reports reports) :
    (poller.wait reports).eventList.length = poller.eventList.length := by
  have written : (reports.filterMap fun report =>
      (poller.registered report.1).map fun entry => EpollEvent.mk entry.ch report.2).length =
        reports.length := by
    rw [List.length_filterMap_eq_countP]
    apply List.countP_eq_length.mpr
    intro report member
    obtain ⟨entry, known, -⟩ := reported.2.2 report member
    rw [Option.isSome_map, Option.mem_def.mp known]
    rfl
  rw [wait, List.length_append, List.length_drop, written]
  exact Nat.add_sub_cancel' reported.1

end Epoll

namespace PollRun

variable {Cb : Type}

/-! ## What a step does -/

theorem of_enableEvent {s next : PollRun Cb} {ch : Nat} {et : EventType} {cb : Option Cb}
    (taken : s.act (.enableEvent ch et cb) = some next) :
    s.phase.userRuns = true ∧ ∃ owned channel,
      s.channels ch = some owned ∧ next = s.update ch ⟨owned.fd, channel⟩ := by
  simp only [act] at taken
  split at taken
  · next users =>
      obtain ⟨owned, living, found⟩ := Option.bind_eq_some_iff.mp taken
      obtain ⟨channel, -, updated⟩ := Option.map_eq_some_iff.mp found
      exact ⟨users, owned, channel, living, updated.symm⟩
  · cases taken

theorem of_iterate {s next : PollRun Cb} (taken : s.act .iterate = some next) :
    ∃ i nEvent, ∃ event : EpollEvent, s.phase = .dispatching i nEvent ∧ i < nEvent ∧
      next = { s.onChannel event.ch (·.triggerEvents event.events) with
        phase := .handling i nEvent event.ch } := by
  simp only [act] at taken
  split at taken
  · next i nEvent phase =>
      obtain ⟨more, event, -, rfl⟩ := of_guarded_map taken
      exact ⟨i, nEvent, event, phase, more, rfl⟩
  · cases taken

theorem of_handled {s next : PollRun Cb} (taken : s.act .handled = some next) :
    ∃ i nEvent ch, s.phase = .handling i nEvent ch ∧
      next = { s.onChannel ch Channel.handled with phase := .dispatching (i + 1) nEvent } := by
  simp only [act] at taken
  split at taken
  · next i nEvent ch phase => exact ⟨i, nEvent, ch, phase, (Option.some.inj taken).symm⟩
  · cases taken

theorem of_finish {s next : PollRun Cb} (taken : s.act .finish = some next) :
    ∃ i nEvent, s.phase = .dispatching i nEvent ∧ nEvent ≤ i ∧
      next = { s with phase := .idle } := by
  simp only [act] at taken
  split at taken
  · next i nEvent phase =>
      split at taken
      · cases taken
      · next done =>
          exact ⟨i, nEvent, phase, Nat.le_of_not_lt done, (Option.some.inj taken).symm⟩
  · cases taken

/-- Every living channel has a descriptor of its own, which is open. -/
structure Inv (s : PollRun Cb) : Prop where
  accepted : s.refused = none
  same : s.poller.Same
  opened : ∀ ch owned, s.channels ch = some owned → s.isOpen owned.fd = true
  single : ∀ ch other owned twin, s.channels ch = some owned → s.channels other = some twin →
    owned.fd = twin.fd → ch = other
  known : ∀ ch owned, s.channels ch = some owned → ch < s.made

theorem inv_new : Inv ({} : PollRun Cb) where
  accepted := rfl
  same := Epoll.same_new
  opened := by
    intro ch owned living
    cases living
  single := by
    intro ch other owned twin living
    cases living
  known := by
    intro ch owned living
    cases living

/-- A step that changes the channels in place. -/
theorem Inv.change {s : PollRun Cb} (inv : s.Inv) {poller : Epoll} (same : poller.Same)
    {channels : Nat → Option (OwnedChannel Cb)}
    (old : ∀ ch owned, channels ch = some owned →
      ∃ before, s.channels ch = some before ∧ before.fd = owned.fd) (phase : PollPhase) :
    Inv { s with poller := poller, channels := channels, phase := phase } where
  accepted := inv.accepted
  same := same
  opened := by
    intro ch owned living
    obtain ⟨before, lived, fd⟩ := old ch owned living
    exact fd ▸ inv.opened ch before lived
  single := by
    intro ch other owned twin living twinLiving equal
    obtain ⟨before, lived, fd⟩ := old ch owned living
    obtain ⟨twinBefore, twinLived, twinFd⟩ := old other twin twinLiving
    exact inv.single ch other before twinBefore lived twinLived (fd.trans (equal.trans twinFd.symm))
  known := by
    intro ch owned living
    obtain ⟨before, lived, -⟩ := old ch owned living
    exact inv.known ch before lived

theorem Inv.onChannel {s : PollRun Cb} (inv : s.Inv) (ch : Nat)
    (change : Channel Cb → Channel Cb) (phase : PollPhase) :
    Inv { s.onChannel ch change with phase := phase } := by
  refine inv.change inv.same (fun other owned living => ?_) phase
  change Function.update s.channels ch _ other = some owned at living
  by_cases here : other = ch
  · rw [here, Function.update_self] at living
    obtain ⟨before, lived, rfl⟩ := Option.map_eq_some_iff.mp living
    exact ⟨before, here ▸ lived, rfl⟩
  · rw [Function.update_of_ne here] at living
    exact ⟨owned, living, rfl⟩

/-- `update_channel` is accepted for a living channel. -/
theorem Inv.update_eq {s : PollRun Cb} (inv : s.Inv) {ch : Nat} {owned : OwnedChannel Cb}
    (living : s.channels ch = some owned) (channel : Channel Cb) :
    s.update ch ⟨owned.fd, channel⟩ = { s with
      channels := Function.update s.channels ch (some ⟨owned.fd, channel⟩)
      poller := Epoll.resize { s.poller with
        fdSet := insert owned.fd s.poller.fdSet
        registered := Function.update s.poller.registered owned.fd
          (some ⟨ch, channel.interest⟩) } (insert owned.fd s.poller.fdSet).card } := by
  simp only [update, inv.opened ch owned living, inv.same.updateChannel_eq]

theorem Inv.update {s : PollRun Cb} (inv : s.Inv) {ch : Nat} {owned : OwnedChannel Cb}
    (living : s.channels ch = some owned) (channel : Channel Cb) :
    (s.update ch ⟨owned.fd, channel⟩).Inv := by
  rw [inv.update_eq living]
  refine inv.change (inv.same.insert _ _ _) (fun other found there => ?_) s.phase
  rcases Table.of_update_some there with ⟨rfl, rfl⟩ | ⟨-, before⟩
  · exact ⟨owned, living, rfl⟩
  · exact ⟨found, before, rfl⟩

/-- `~Channel` is accepted, and closes the descriptor of no other channel. -/
theorem Inv.destroy_eq {s : PollRun Cb} (inv : s.Inv) {ch : Nat} {owned : OwnedChannel Cb}
    (living : s.channels ch = some owned) :
    s.destroy ch owned = { s with
      poller := { s.poller with
        fdSet := s.poller.fdSet.erase owned.fd
        registered := Function.update s.poller.registered owned.fd none }
      channels := Function.update s.channels ch none
      isOpen := Function.update s.isOpen owned.fd false } := by
  simp only [destroy, inv.opened ch owned living, inv.same.removeChannel_eq, Epoll.close,
    Function.update_idem]

theorem Inv.destroy {s : PollRun Cb} (inv : s.Inv) {ch : Nat} {owned : OwnedChannel Cb}
    (living : s.channels ch = some owned) : (s.destroy ch owned).Inv := by
  rw [inv.destroy_eq living]
  refine ⟨inv.accepted, inv.same.erase _ _, fun other found there => ?_,
    fun other twin found twinFound there twinThere => ?_, Table.forall_update_none inv.known⟩
  · obtain ⟨apart, before⟩ := Table.of_update_none there
    change Function.update s.isOpen owned.fd false found.fd = true
    rw [Function.update_of_ne fun equal => apart (inv.single _ _ _ _ before living equal)]
    exact inv.opened other found before
  · exact inv.single other twin found twinFound (Table.of_update_none there).2
      (Table.of_update_none twinThere).2

/-- A new channel for a descriptor that no other one has. -/
theorem Inv.getChannel {s : PollRun Cb} (inv : s.Inv) {fd : Nat} (isOpen : s.isOpen fd = true)
    (unowned : ¬ s.Owned fd) :
    Inv { s with
      channels := Function.update s.channels s.made (some ⟨fd, .new⟩)
      made := s.made + 1 } := by
  have apart {ch : Nat} {owned : OwnedChannel Cb} (living : s.channels ch = some owned) :
      owned.fd ≠ fd :=
    fun same => unowned ⟨ch, inv.known ch owned living, owned, living, same⟩
  refine ⟨inv.accepted, inv.same, Table.forall_update_some inv.opened isOpen,
    fun ch other owned twin there twinThere equal => ?_, ?_⟩
  · rcases Table.of_update_some there with ⟨rfl, rfl⟩ | ⟨-, before⟩
    · rcases Table.of_update_some twinThere with ⟨rfl, rfl⟩ | ⟨-, twinBefore⟩
      · rfl
      · exact absurd equal.symm (apart twinBefore)
    · rcases Table.of_update_some twinThere with ⟨rfl, rfl⟩ | ⟨-, twinBefore⟩
      · exact absurd equal (apart before)
      · exact inv.single ch other owned twin before twinBefore equal
  · refine Table.forall_update_some (fun ch owned living => ?_) (Nat.lt_succ_self _)
    exact Nat.lt_succ_of_lt (inv.known ch owned living)

/-- What a step does, for each event. -/
theorem Inv.step {s next : PollRun Cb} {event : Event Cb} (inv : s.Inv)
    (taken : s.step event = some next) : next.Inv := by
  rw [PollRun.step, if_pos inv.accepted] at taken
  cases event with
  | opens fd =>
      obtain ⟨-, rfl⟩ := of_guarded taken
      refine ⟨inv.accepted, inv.same, fun ch owned living => ?_, inv.single, inv.known⟩
      change Function.update s.isOpen fd true owned.fd = true
      by_cases here : owned.fd = fd
      · rw [here, Function.update_self]
      · rw [Function.update_of_ne here]
        exact inv.opened ch owned living
  | getChannel fd =>
      obtain ⟨⟨-, isOpen, unowned⟩, rfl⟩ := of_guarded taken
      exact inv.getChannel isOpen unowned
  | once ch =>
      obtain ⟨-, rfl⟩ := of_guarded taken
      exact inv.onChannel ch (fun channel => { channel with isOnce := true }) s.phase
  | enableEvent ch et cb =>
      obtain ⟨-, owned, channel, living, rfl⟩ := of_enableEvent taken
      exact inv.update living channel
  | disableEvent ch et =>
      obtain ⟨-, owned, living, rfl⟩ := of_guarded_map taken
      exact inv.update living _
  | destroy ch =>
      obtain ⟨-, owned, living, rfl⟩ := of_guarded_map taken
      exact inv.destroy living
  | poll reports =>
      obtain ⟨-, rfl⟩ := of_guarded taken
      exact inv.change (inv.same.wait reports) (fun ch owned living => ⟨owned, living, rfl⟩) _
  | iterate =>
      obtain ⟨i, nEvent, event, -, -, rfl⟩ := of_iterate taken
      exact inv.onChannel event.ch _ _
  | handled =>
      obtain ⟨i, nEvent, ch, -, rfl⟩ := of_handled taken
      exact inv.onChannel ch _ _
  | finish =>
      obtain ⟨i, nEvent, -, -, rfl⟩ := of_finish taken
      exact ⟨inv.accepted, inv.same, inv.opened, inv.single, inv.known⟩

/-! ## The loop over the events -/

/-- There is a place in `event_list` for each event that is still to come. -/
structure Roomy (s : PollRun Cb) : Prop where
  inv : s.Inv
  room : s.phase.needs ≤ s.poller.eventList.length

theorem roomy_new : Roomy ({} : PollRun Cb) := ⟨inv_new, Nat.zero_le _⟩

theorem Roomy.dispatches {s : PollRun Cb} (roomy : s.Roomy) : s.Dispatches := by
  refine ⟨roomy.inv.accepted, roomy.inv.same, ?_⟩
  have room := roomy.room
  rw [InRange]
  split
  · next i nEvent phase =>
      intro more
      rw [phase, PollPhase.needs, if_pos more] at room
      exact Nat.lt_of_lt_of_le more room
  · trivial

/-- An update leaves the vector with the size of `fd_set`. -/
theorem Inv.room_update {s : PollRun Cb} (inv : s.Inv) {ch : Nat} {owned : OwnedChannel Cb}
    (living : s.channels ch = some owned) (channel : Channel Cb) :
    (s.update ch ⟨owned.fd, channel⟩).phase = s.phase ∧
      (s.update ch ⟨owned.fd, channel⟩).poller.eventList.length =
        (insert owned.fd s.poller.fdSet).card := by
  rw [inv.update_eq living]
  exact ⟨rfl, Epoll.length_resize _ _⟩

/-- An update under the condition leaves a place for each event that is to come. -/
theorem Roomy.update {s : PollRun Cb} (roomy : s.Roomy) {ch : Nat} {owned : OwnedChannel Cb}
    (living : s.channels ch = some owned) (channel : Channel Cb)
    (keeps : s.phase.needs ≤ (insert owned.fd s.poller.fdSet).card) :
    (s.update ch ⟨owned.fd, channel⟩).Roomy := by
  obtain ⟨phase, length⟩ := roomy.inv.room_update living channel
  refine ⟨roomy.inv.update living channel, ?_⟩
  rw [phase, length]
  exact keeps

theorem Roomy.step {s next : PollRun Cb} {event : Event Cb} (roomy : s.Roomy)
    (keeps : s.KeepsSize event) (taken : s.step event = some next) : next.Roomy := by
  have inv := roomy.inv
  have room := roomy.room
  have nextInv := inv.step taken
  rw [PollRun.step, if_pos inv.accepted] at taken
  cases event with
  | opens fd =>
      obtain ⟨-, rfl⟩ := of_guarded taken
      exact ⟨nextInv, room⟩
  | getChannel fd =>
      obtain ⟨-, rfl⟩ := of_guarded taken
      exact ⟨nextInv, room⟩
  | once ch =>
      obtain ⟨-, rfl⟩ := of_guarded taken
      exact ⟨nextInv, room⟩
  | enableEvent ch et cb =>
      obtain ⟨-, owned, channel, living, rfl⟩ := of_enableEvent taken
      exact roomy.update living channel (keeps owned living)
  | disableEvent ch et =>
      obtain ⟨-, owned, living, rfl⟩ := of_guarded_map taken
      exact roomy.update living _ (keeps owned living)
  | destroy ch =>
      obtain ⟨-, owned, living, rfl⟩ := of_guarded_map taken
      refine ⟨nextInv, ?_⟩
      rw [inv.destroy_eq living]
      exact room
  | poll reports =>
      obtain ⟨⟨-, reported⟩, rfl⟩ := of_guarded taken
      refine ⟨nextInv, ?_⟩
      change (if 0 < reports.length then reports.length else 0) ≤
        (s.poller.wait reports).eventList.length
      rw [Epoll.length_wait reported]
      split
      · exact reported.1
      · exact Nat.zero_le _
  | iterate =>
      obtain ⟨i, nEvent, event, phase, more, rfl⟩ := of_iterate taken
      refine ⟨nextInv, ?_⟩
      rw [phase, PollPhase.needs, if_pos more] at room
      change (if i + 1 < nEvent then nEvent else 0) ≤ s.poller.eventList.length
      split
      · exact room
      · exact Nat.zero_le _
  | handled =>
      obtain ⟨i, nEvent, ch, phase, rfl⟩ := of_handled taken
      rw [phase] at room
      exact ⟨nextInv, room⟩
  | finish =>
      obtain ⟨i, nEvent, -, -, rfl⟩ := of_finish taken
      exact ⟨nextInv, Nat.zero_le _⟩

/-- While updates inside the loop keep the size, each index of the loop is valid. -/
theorem dispatches_of_keepsSize (events : List (Event Cb))
    (keeps : StepsMeet step KeepsSize ({} : PollRun Cb) events) :
    AllStates step Dispatches ({} : PollRun Cb) events :=
  allStates_of_stepsMeet Roomy (fun _ _ _ roomy met taken => roomy.step met taken)
    (fun _ roomy => roomy.dispatches) events roomy_new keeps

/-- Three channels that wait for input, and a `poll` that reports all of them. -/
def threeReady : List (Event Unit) :=
  let ready : Nat → Nat × (EventType → Bool) := fun fd => (fd, (· = .read))
  [.opens 3, .opens 4, .opens 5, .getChannel 3, .getChannel 4, .getChannel 5,
    .enableEvent 1 .read (some ()), .enableEvent 2 .read (some ()),
    .enableEvent 3 .read (some ()), .poll [ready 3, ready 4, ready 5], .iterate]

/-- The first handler updates its channel, and the last one destroys another one. -/
def lateDestroyRun : List (Event Unit) :=
  threeReady ++ [.enableEvent 1 .write (some ()), .handled, .iterate, .handled, .iterate,
    .destroy 1, .disableEvent 3 .read, .handled, .finish]

theorem dispatches_of_keepsSize_lateDestroyRun :
    AllStates step Dispatches ({} : PollRun Unit) lateDestroyRun :=
  dispatches_of_keepsSize lateDestroyRun (by decide +kernel)

/-- The second handler destroys the channel of the first, and updates its own. -/
def earlyDestroyRun : List (Event Unit) :=
  threeReady ++ [.handled, .iterate, .destroy 1, .disableEvent 2 .write, .handled]

theorem earlyDestroyRun_outOfRange :
    ¬ ∀ (Cb : Type) (events : List (Event Cb)),
      AllStates step Dispatches ({} : PollRun Cb) events := by
  intro all
  have short : (runFrom step ({} : PollRun Unit) earlyDestroyRun).map
      (fun last => (last.phase, last.poller.eventList.length)) =
        some (.dispatching 2 3, 2) := by
    decide +kernel
  obtain ⟨last, run, place⟩ := Option.map_eq_some_iff.mp short
  have inRange := ((all Unit earlyDestroyRun).last run).inRange
  rw [InRange, (Prod.mk.inj place).1, (Prod.mk.inj place).2] at inRange
  exact absurd (inRange (by decide)) (by decide)

/-- The registrations are right in every run, whatever the handlers do. -/
theorem allStates_same (events : List (Event Cb)) :
    AllStates step (fun s => s.refused = none ∧ s.poller.Same) ({} : PollRun Cb) events :=
  allStates_of_invariant Inv (fun _ _ _ inv taken => inv.step taken)
    (fun _ inv => ⟨inv.accepted, inv.same⟩) events inv_new

/-- The loop comes to the end of a vector that is too short. -/
theorem reaches_outOfRange {s : PollRun Cb} (accepted : s.refused = none) {i nEvent : Nat}
    (phase : s.phase = .dispatching i nEvent) (more : i < nEvent)
    (short : s.poller.eventList.length < nEvent) :
    Reaches step (fun last => ¬ last.Dispatches) s := by
  obtain ⟨left, length⟩ : ∃ left, s.poller.eventList.length ≤ i + left :=
    ⟨s.poller.eventList.length, Nat.le_add_left _ _⟩
  induction left generalizing s i with
  | zero =>
      apply reaches_now
      intro dispatches
      have inRange := dispatches.inRange
      simp only [InRange, phase] at inRange
      exact absurd (inRange more) (Nat.not_lt_of_le length)
  | succ left ih =>
      by_cases inside : i < s.poller.eventList.length
      · obtain ⟨event, found⟩ : ∃ event, s.poller.eventList[i]? = some event :=
          ⟨_, List.getElem?_eq_getElem inside⟩
        have iterates : s.step .iterate =
            some { s.onChannel event.ch (·.triggerEvents event.events) with
              phase := .handling i nEvent event.ch } := by
          rw [step, if_pos accepted]
          simp only [act, phase, if_pos more, found, Option.map_some]
        apply reaches_next iterates
        have returns : PollRun.step { s.onChannel event.ch (·.triggerEvents event.events) with
              phase := .handling i nEvent event.ch } .handled = some
            { PollRun.onChannel { s.onChannel event.ch (·.triggerEvents event.events) with
                phase := .handling i nEvent event.ch } event.ch Channel.handled with
              phase := .dispatching (i + 1) nEvent } := if_pos accepted
        refine reaches_next returns (ih accepted rfl (Nat.lt_of_le_of_lt inside short) short ?_)
        change s.poller.eventList.length ≤ i + 1 + left
        omega
      · apply reaches_now
        intro dispatches
        have inRange := dispatches.inRange
        simp only [InRange, phase] at inRange
        exact inside (inRange more)

/-- An update that leaves too few places makes the loop read behind the vector. -/
theorem reaches_of_shrinking {s next : PollRun Cb} (inv : s.Inv) {ch : Nat}
    {owned : OwnedChannel Cb} (living : s.channels ch = some owned) {channel : Channel Cb}
    (users : s.phase.userRuns = true) (updated : next = s.update ch ⟨owned.fd, channel⟩)
    (shrinks : ¬ s.phase.needs ≤ (insert owned.fd s.poller.fdSet).card) :
    Reaches step (fun last => ¬ last.Dispatches) next := by
  obtain ⟨same, length⟩ := inv.room_update living channel
  have nextInv := inv.update living channel
  rw [← updated] at same length nextInv
  cases phase : s.phase with
  | idle =>
      rw [phase] at shrinks
      exact absurd (Nat.zero_le _) shrinks
  | dispatching i nEvent =>
      rw [phase] at users
      cases users
  | handling i nEvent at_ =>
      rw [phase] at shrinks same
      by_cases more : i + 1 < nEvent
      · rw [PollPhase.needs, if_pos more, ← length] at shrinks
        have returns : next.step .handled =
            some { next.onChannel at_ Channel.handled with
              phase := .dispatching (i + 1) nEvent } := by
          rw [step, if_pos nextInv.accepted]
          simp only [act, same]
        exact reaches_next returns
          (reaches_outOfRange nextInv.accepted rfl more (Nat.lt_of_not_le shrinks))
      · rw [PollPhase.needs, if_neg more] at shrinks
        exact absurd (Nat.zero_le _) shrinks

/-- A step against the condition can always be followed by one behind the vector. -/
theorem reaches_of_not_keepsSize {events : List (Event Cb)} {s next : PollRun Cb}
    {event : Event Cb} (run : runFrom step ({} : PollRun Cb) events = some s)
    (taken : s.step event = some next) (shrinks : ¬ s.KeepsSize event) :
    Reaches step (fun last => ¬ last.Dispatches) next := by
  have inv := runFrom_invariant Inv (fun _ _ _ inv taken => inv.step taken) inv_new run
  rw [PollRun.step, if_pos inv.accepted] at taken
  cases event with
  | enableEvent ch et cb =>
      obtain ⟨users, owned, channel, living, updated⟩ := of_enableEvent taken
      refine reaches_of_shrinking inv living users updated fun keeps => shrinks ?_
      intro other there
      rw [living] at there
      cases there
      exact keeps
  | disableEvent ch et =>
      obtain ⟨users, owned, living, updated⟩ := of_guarded_map taken
      refine reaches_of_shrinking inv living users updated.symm fun keeps => shrinks ?_
      intro other there
      rw [living] at there
      cases there
      exact keeps
  | opens fd => exact absurd trivial shrinks
  | getChannel fd => exact absurd trivial shrinks
  | once ch => exact absurd trivial shrinks
  | destroy ch => exact absurd trivial shrinks
  | poll reports => exact absurd trivial shrinks
  | iterate => exact absurd trivial shrinks
  | handled => exact absurd trivial shrinks
  | finish => exact absurd trivial shrinks

end PollRun

end SimpleWebServer.Reactor
