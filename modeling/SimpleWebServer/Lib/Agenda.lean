import Mathlib.Data.List.Basic
import Mathlib.Data.List.Perm.Basic
import Mathlib.Order.Lattice

/-!
# Agendas

Items with a time are filed and withdrawn while the present moves on.  An agenda keeps the
items in the order in which they were filed; which of them are done, and in which order,
follows from the present.
-/

namespace SimpleWebServer.Lib

variable {Item Time : Type*} [LinearOrder Time]

/-! ## Items in the order of their times -/

/-- The items sorted by time, those of one time in their order. -/
def byTime (due : Item → Time) (items : List Item) : List Item :=
  items.mergeSort fun first second => due first ≤ due second

section byTime

variable {due : Item → Time} {items : List Item}

theorem mem_byTime {item : Item} : item ∈ byTime due items ↔ item ∈ items :=
  List.mem_mergeSort

theorem nodup_byTime (nodup : items.Nodup) : (byTime due items).Nodup :=
  (List.mergeSort_perm _ _).nodup_iff.mpr nodup

theorem trans_due (first second third : Item) (below : decide (due first ≤ due second) = true)
    (above : decide (due second ≤ due third) = true) : decide (due first ≤ due third) = true :=
  decide_eq_true ((of_decide_eq_true below).trans (of_decide_eq_true above))

theorem total_due (first second : Item) :
    (decide (due first ≤ due second) || decide (due second ≤ due first)) = true := by
  simpa only [Bool.or_eq_true, decide_eq_true_eq] using le_total (due first) (due second)

theorem pairwise_byTime :
    (byTime due items).Pairwise fun first second => due first ≤ due second :=
  (List.pairwise_mergeSort trans_due total_due items).imp of_decide_eq_true

theorem pairwise_of_same {time : Time} (same : ∀ item ∈ items, due item = time) :
    items.Pairwise fun first second => decide (due first ≤ due second) = true := by
  apply List.pairwise_of_forall_mem_list
  intro first firstIn second secondIn
  rw [same first firstIn, same second secondIn]
  exact decide_eq_true le_rfl

/-- Items of one time stay as they are. -/
theorem byTime_of_same {time : Time} (same : ∀ item ∈ items, due item = time) :
    byTime due items = items :=
  List.mergeSort_of_pairwise (pairwise_of_same same)

/-- The items of each time keep their order. -/
theorem filter_byTime (time : Time) :
    (byTime due items).filter (fun item => due item = time) =
      items.filter fun item => due item = time := by
  have inside : ∀ item ∈ items.filter (fun item => due item = time), due item = time :=
    fun item member => of_decide_eq_true (List.mem_filter.mp member).2
  have sublist : (items.filter fun item => due item = time).Sublist (byTime due items) :=
    List.sublist_mergeSort trans_due total_due (pairwise_of_same inside) List.filter_sublist
  have kept := sublist.filter fun item => due item = time
  rw [List.filter_filter] at kept
  simp only [Bool.and_self] at kept
  have lengths := ((List.mergeSort_perm items
    (fun first second => decide (due first ≤ due second))).filter
      fun item => decide (due item = time)).length_eq
  exact (kept.eq_of_length lengths.symm).symm

/-- Two sorted lists with the same items of each time are the same. -/
theorem eq_of_sorted {first second : List Item}
    (firstSorted : first.Pairwise fun item other => due item ≤ due other)
    (secondSorted : second.Pairwise fun item other => due item ≤ due other)
    (same : ∀ time, first.filter (fun item => due item = time) =
      second.filter fun item => due item = time) : first = second := by
  induction first generalizing second with
  | nil =>
      cases second with
      | nil => rfl
      | cons item rest => simpa using same (due item)
  | cons item rest ih =>
      cases second with
      | nil => simpa using same (due item)
      | cons other more =>
          obtain ⟨below, restSorted⟩ := List.pairwise_cons.mp firstSorted
          obtain ⟨otherBelow, moreSorted⟩ := List.pairwise_cons.mp secondSorted
          -- each head is found in the other list
          have itemIn : item ∈ other :: more := by
            have member : item ∈ (item :: rest).filter fun entry => due entry = due item :=
              List.mem_filter.mpr ⟨List.mem_cons_self, decide_eq_true rfl⟩
            rw [same] at member
            exact (List.mem_filter.mp member).1
          have otherIn : other ∈ item :: rest := by
            have member : other ∈ (other :: more).filter fun entry => due entry = due other :=
              List.mem_filter.mpr ⟨List.mem_cons_self, decide_eq_true rfl⟩
            rw [← same] at member
            exact (List.mem_filter.mp member).1
          have atOnce : due item = due other := by
            apply le_antisymm
            · rcases List.mem_cons.mp otherIn with rfl | behind
              · exact le_rfl
              · exact below other behind
            · rcases List.mem_cons.mp itemIn with rfl | behind
              · exact le_rfl
              · exact otherBelow item behind
          have heads := same (due item)
          rw [List.filter_cons_of_pos (by simp),
            List.filter_cons_of_pos (by simp [atOnce])] at heads
          obtain ⟨rfl, -⟩ := List.cons.inj heads
          congr 1
          apply ih restSorted moreSorted
          intro time
          have tails := same time
          by_cases here : due item = time
          · rw [List.filter_cons_of_pos (by simpa using here),
              List.filter_cons_of_pos (by simpa using here)] at tails
            exact (List.cons.inj tails).2
          · rwa [List.filter_cons_of_neg (by simpa using here),
              List.filter_cons_of_neg (by simpa using here)] at tails

/-- The items up to a time come before the later ones. -/
theorem byTime_split (time : Time) :
    byTime due items = byTime due (items.filter fun item => due item ≤ time) ++
      byTime due (items.filter fun item => time < due item) := by
  apply eq_of_sorted pairwise_byTime
  · refine List.pairwise_append.mpr ⟨pairwise_byTime, pairwise_byTime, ?_⟩
    intro early earlyIn late lateIn
    have before := of_decide_eq_true (List.mem_filter.mp (mem_byTime.mp earlyIn)).2
    have behind := of_decide_eq_true (List.mem_filter.mp (mem_byTime.mp lateIn)).2
    exact before.trans behind.le
  · intro other
    rw [List.filter_append, filter_byTime, filter_byTime, filter_byTime, List.filter_filter,
      List.filter_filter]
    by_cases early : other ≤ time
    · have all : items.filter (fun item => decide (due item = other) && decide (due item ≤ time)) =
          items.filter fun item => due item = other :=
        List.filter_congr fun item _ => by
          by_cases here : due item = other <;> simp [here, early]
      have none : items.filter (fun item => decide (due item = other) && decide (time < due item)) =
          [] :=
        List.filter_eq_nil_iff.mpr fun item _ => by
          by_cases here : due item = other <;> simp [here, early]
      rw [all, none, List.append_nil]
    · have all : items.filter (fun item => decide (due item = other) && decide (time < due item)) =
          items.filter fun item => due item = other :=
        List.filter_congr fun item _ => by
          by_cases here : due item = other <;> simp [here, not_le.mp early]
      have none : items.filter (fun item => decide (due item = other) && decide (due item ≤ time)) =
          [] :=
        List.filter_eq_nil_iff.mpr fun item _ => by
          by_cases here : due item = other <;> simp [here, not_le.mp early]
      rw [all, none, List.nil_append]

end byTime

/-! ## The agenda -/

/-- What was filed and not withdrawn before its time, and the present. -/
structure Agenda (Item Time : Type*) where
  now : Time
  items : List Item

namespace Agenda

variable (due : Item → Time) (agenda : Agenda Item Time)

/-- The items whose time is still to come, in the order in which they were filed. -/
def pending : List Item := agenda.items.filter fun item => agenda.now < due item

/-- The items whose time has come, in the order of their times. -/
def done : List Item := byTime due (agenda.items.filter fun item => due item ≤ agenda.now)

def file (item : Item) : Agenda Item Time := { agenda with items := agenda.items ++ [item] }

def withdraw [DecidableEq Item] (item : Item) : Agenda Item Time :=
  { agenda with items := agenda.items.filter (· ≠ item) }

def turn (now : Time) : Agenda Item Time := { agenda with now := now }

variable {due} {agenda}

theorem mem_pending {item : Item} :
    item ∈ agenda.pending due ↔ item ∈ agenda.items ∧ agenda.now < due item := by
  rw [pending, List.mem_filter, decide_eq_true_eq]

theorem mem_done {item : Item} :
    item ∈ agenda.done due ↔ item ∈ agenda.items ∧ due item ≤ agenda.now := by
  rw [done, mem_byTime, List.mem_filter, decide_eq_true_eq]

theorem pending_file {item : Item} (ahead : agenda.now < due item) :
    (agenda.file item).pending due = agenda.pending due ++ [item] := by
  change (agenda.items ++ [item]).filter (fun other => agenda.now < due other) = _
  simp [pending, ahead]

theorem done_file {item : Item} (ahead : agenda.now < due item) :
    (agenda.file item).done due = agenda.done due := by
  change byTime due ((agenda.items ++ [item]).filter fun other => due other ≤ agenda.now) = _
  simp [done, not_le.mpr ahead]

theorem pending_withdraw [DecidableEq Item] (item : Item) :
    (agenda.withdraw item).pending due = (agenda.pending due).filter (· ≠ item) := by
  rw [pending, pending, withdraw, List.filter_filter, List.filter_filter]
  exact List.filter_congr fun _ _ => Bool.and_comm _ _

theorem done_withdraw [DecidableEq Item] {item : Item} (ahead : agenda.now < due item) :
    (agenda.withdraw item).done due = agenda.done due := by
  rw [done, done, withdraw, List.filter_filter]
  congr 1
  apply List.filter_congr
  intro other _
  by_cases past : due other ≤ agenda.now
  · have apart : other ≠ item := fun same => absurd past (not_le.mpr (same ▸ ahead))
    simp [past, apart]
  · simp [past]

theorem pending_turn {now : Time} (later : agenda.now ≤ now) :
    (agenda.turn now).pending due = (agenda.pending due).filter fun item => now < due item := by
  rw [pending, pending, turn, List.filter_filter]
  apply List.filter_congr
  intro item _
  by_cases ahead : now < due item
  · simp [ahead, later.trans_lt ahead]
  · simp [ahead]

/-- As the present moves on, what it passes is done in the order of its times. -/
theorem done_turn {now : Time} (later : agenda.now ≤ now) :
    (agenda.turn now).done due =
      agenda.done due ++ byTime due ((agenda.pending due).filter fun item => due item ≤ now) := by
  rw [done, byTime_split agenda.now, done, pending, turn, List.filter_filter, List.filter_filter,
    List.filter_filter]
  congr 2
  · apply List.filter_congr
    intro item _
    by_cases past : due item ≤ agenda.now
    · simp [past, past.trans later]
    · simp [past]
  · exact List.filter_congr fun _ _ => Bool.and_comm _ _

end Agenda

end SimpleWebServer.Lib
