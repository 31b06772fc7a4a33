import Mathlib.Data.List.AList
import SimpleWebServer.Lib.Tables

/-!
# Registries of objects with recycled handles

An object owns a handle while it exists, and a handle may be owned again when its object is
gone.  A table finds the objects by their handles.  Handles are opened before their objects
are made, objects are made before they are listed, and an object is removed once it has been
told to leave; other things may happen in between.  The names of objects are not recycled.
-/

namespace SimpleWebServer.Lib

variable {Id Handle : Type*}

structure Registry (Id Handle : Type*) [DecidableEq Handle] where
  /-- the handle of an object that exists -/
  handle : Id → Option Handle
  /-- open handles that no object owns yet -/
  loose : List Handle
  table : AList fun _ : Handle => Id
  /-- objects that are not listed yet -/
  making : List Id
  /-- objects that have been told to leave -/
  leaving : List Id

namespace Registry

variable [DecidableEq Handle]

/-- Every handle is in one place, and the table lists the objects that have been made. -/
structure Sound (registry : Registry Id Handle) (limit : Nat) : Prop where
  distinct : ∀ {id other handle}, registry.handle id = some handle →
    registry.handle other = some handle → id = other
  loose_nodup : registry.loose.Nodup
  loose_free : ∀ handle ∈ registry.loose, ∀ id, registry.handle id ≠ some handle
  entry : ∀ {handle id}, registry.table.lookup handle = some id ↔
    registry.handle id = some handle ∧ id ∉ registry.making
  making_nodup : registry.making.Nodup
  making_owns : ∀ id ∈ registry.making, registry.handle id ≠ none
  room : registry.table.keys.length + registry.making.length ≤ limit
  leaving_nodup : registry.leaving.Nodup
  leaving_owns : ∀ id ∈ registry.leaving, registry.handle id ≠ none

theorem sound_empty (limit : Nat) :
    Sound (⟨fun _ => none, [], ∅, [], []⟩ : Registry Id Handle) limit := by
  constructor <;> simp

section

variable {registry : Registry Id Handle} {limit : Nat} {id : Id} {handle : Handle}

/-- The order in which handles wait to be owned, and objects to be removed, does not matter. -/
theorem Sound.perm (sound : registry.Sound limit) {loose : List Handle} {leaving : List Id}
    (looseSame : loose.Perm registry.loose) (leavingSame : leaving.Perm registry.leaving) :
    { registry with loose := loose, leaving := leaving }.Sound limit where
  distinct := sound.distinct
  loose_nodup := looseSame.nodup_iff.mpr sound.loose_nodup
  loose_free handle isLoose := sound.loose_free handle (looseSame.mem_iff.mp isLoose)
  entry := sound.entry
  making_nodup := sound.making_nodup
  making_owns := sound.making_owns
  room := sound.room
  leaving_nodup := leavingSame.nodup_iff.mpr sound.leaving_nodup
  leaving_owns id leaves := sound.leaving_owns id (leavingSame.mem_iff.mp leaves)

/-- A handle is opened. -/
theorem Sound.opened (sound : registry.Sound limit) (notLoose : handle ∉ registry.loose)
    (notOwned : ∀ id, registry.handle id ≠ some handle) :
    { registry with loose := handle :: registry.loose }.Sound limit where
  distinct := sound.distinct
  loose_nodup := List.nodup_cons.mpr ⟨notLoose, sound.loose_nodup⟩
  loose_free other isLoose := by
    rcases List.mem_cons.mp isLoose with rfl | before
    · exact notOwned
    · exact sound.loose_free other before
  entry := sound.entry
  making_nodup := sound.making_nodup
  making_owns := sound.making_owns
  room := sound.room
  leaving_nodup := sound.leaving_nodup
  leaving_owns := sound.leaving_owns

/-- A handle that no object owns is closed. -/
theorem Sound.closed {loose : List Handle}
    (sound : { registry with loose := handle :: loose }.Sound limit) :
    { registry with loose := loose }.Sound limit where
  distinct := sound.distinct
  loose_nodup := (List.nodup_cons.mp sound.loose_nodup).2
  loose_free other isLoose := sound.loose_free other (List.mem_cons_of_mem handle isLoose)
  entry := sound.entry
  making_nodup := sound.making_nodup
  making_owns := sound.making_owns
  room := sound.room
  leaving_nodup := sound.leaving_nodup
  leaving_owns := sound.leaving_owns

/-- An object is told to leave. -/
theorem Sound.told (sound : registry.Sound limit) (exists_ : registry.handle id ≠ none)
    (stays : id ∉ registry.leaving) :
    { registry with leaving := id :: registry.leaving }.Sound limit where
  distinct := sound.distinct
  loose_nodup := sound.loose_nodup
  loose_free := sound.loose_free
  entry := sound.entry
  making_nodup := sound.making_nodup
  making_owns := sound.making_owns
  room := sound.room
  leaving_nodup := List.nodup_cons.mpr ⟨stays, sound.leaving_nodup⟩
  leaving_owns other leaves := by
    rcases List.mem_cons.mp leaves with rfl | before
    · exact exists_
    · exact sound.leaving_owns other before

/-- An object that is not listed yet has no entry under its handle, and no other has. -/
theorem Sound.lookup_making (sound : registry.Sound limit) (isMade : id ∈ registry.making)
    (owns : registry.handle id = some handle) : registry.table.lookup handle = none := by
  cases found : registry.table.lookup handle with
  | none => rfl
  | some other =>
      obtain ⟨ownsToo, made⟩ := sound.entry.mp found
      exact absurd (sound.distinct owns ownsToo ▸ isMade) made

/-- Nor has a handle that is loose. -/
theorem Sound.notMem_of_loose (sound : registry.Sound limit) (isLoose : handle ∈ registry.loose) :
    handle ∉ registry.table := by
  rw [← AList.lookup_eq_none]
  cases found : registry.table.lookup handle with
  | none => rfl
  | some other => exact absurd (sound.entry.mp found).1 (sound.loose_free handle isLoose other)

/-- An object that has been made is found under its handle. -/
theorem Sound.lookup_made (sound : registry.Sound limit) (made : id ∉ registry.making)
    (owns : registry.handle id = some handle) : registry.table.lookup handle = some id :=
  sound.entry.mpr ⟨owns, made⟩

/-- The keys of the table are the handles of the objects that have been made. -/
theorem Sound.mem_table (sound : registry.Sound limit) :
    handle ∈ registry.table ↔ ∃ id, registry.handle id = some handle ∧ id ∉ registry.making := by
  rw [← AList.lookup_isSome, Option.isSome_iff_exists]
  exact exists_congr fun id => sound.entry

/-- An object that has been made is listed. -/
theorem Sound.listed {making : List Id}
    (sound : { registry with making := id :: making }.Sound limit)
    (owns : registry.handle id = some handle) :
    { registry with making := making, table := registry.table.insert handle id }.Sound limit where
  distinct := sound.distinct
  loose_nodup := sound.loose_nodup
  loose_free := sound.loose_free
  entry := by
    intro other name
    have isNew : id ∉ making := (List.nodup_cons.mp sound.making_nodup).1
    by_cases same : other = handle
    · subst same
      simp only [AList.lookup_insert, Option.some.injEq]
      constructor
      · rintro rfl
        exact ⟨owns, isNew⟩
      · rintro ⟨ownsToo, -⟩
        exact sound.distinct owns ownsToo
    · simp only [AList.lookup_insert_ne same]
      rw [sound.entry]
      simp only [List.mem_cons, not_or]
      refine and_congr_right fun ownsOther => ⟨fun made => made.2, fun made => ⟨?_, made⟩⟩
      rintro rfl
      exact same (Option.some.inj (ownsOther.symm.trans owns))
  making_nodup := (List.nodup_cons.mp sound.making_nodup).2
  making_owns other isMade := sound.making_owns other (List.mem_cons_of_mem id isMade)
  room := by
    have room := sound.room
    have absent : handle ∉ registry.table.keys := by
      rw [← AList.mem_keys, ← AList.lookup_eq_none]
      exact sound.lookup_making List.mem_cons_self owns
    simp only [AList.keys_insert, List.erase_of_not_mem absent, List.length_cons] at room ⊢
    omega
  leaving_nodup := sound.leaving_nodup
  leaving_owns := sound.leaving_owns

variable [DecidableEq Id]

/-- An object is made, and owns a handle that was loose. -/
theorem Sound.made {loose : List Handle}
    (sound : { registry with loose := handle :: loose }.Sound limit)
    (isNew : registry.handle id = none)
    (free : registry.table.keys.length + registry.making.length < limit) :
    { registry with
      handle := Function.update registry.handle id (some handle)
      loose := loose
      making := id :: registry.making }.Sound limit := by
  have notNew {other : Id} (owns : registry.handle other ≠ none) : other ≠ id := by
    rintro rfl
    exact owns isNew
  have older {other : Id} (different : other ≠ id) :
      Function.update registry.handle id (some handle) other = registry.handle other :=
    Function.update_of_ne different _ _
  have notOwned : ∀ other, registry.handle other ≠ some handle :=
    sound.loose_free handle List.mem_cons_self
  have notMade : id ∉ registry.making := fun isMade => sound.making_owns id isMade isNew
  obtain ⟨notLoose, loose_nodup⟩ := List.nodup_cons.mp sound.loose_nodup
  constructor
  · intro first second key firstOwns secondOwns
    rcases Table.of_update_some firstOwns with ⟨rfl, rfl⟩ | ⟨-, firstHad⟩
    · rcases Table.of_update_some secondOwns with ⟨rfl, -⟩ | ⟨-, secondHad⟩
      · rfl
      · exact absurd secondHad (notOwned second)
    · rcases Table.of_update_some secondOwns with ⟨rfl, rfl⟩ | ⟨-, secondHad⟩
      · exact absurd firstHad (notOwned first)
      · exact sound.distinct firstHad secondHad
  · exact loose_nodup
  · intro key isLoose other owns
    rcases Table.of_update_some owns with ⟨-, rfl⟩ | ⟨-, had⟩
    · exact notLoose isLoose
    · exact sound.loose_free key (List.mem_cons_of_mem handle isLoose) other had
  · intro key other
    by_cases isId : other = id
    · subst isId
      refine ⟨fun found => ?_, fun made => absurd List.mem_cons_self made.2⟩
      have owns := (sound.entry.mp found).1
      exact absurd owns (by rw [isNew]; simp)
    · simp only [older isId, List.mem_cons, isId, false_or]
      exact sound.entry
  · exact List.nodup_cons.mpr ⟨notMade, sound.making_nodup⟩
  · intro other isMade
    rcases List.mem_cons.mp isMade with rfl | before
    · simp
    · have owns := sound.making_owns other before
      simp only [older (notNew owns)]
      exact owns
  · simp only [List.length_cons]
    omega
  · exact sound.leaving_nodup
  · intro other leaves
    have owns := sound.leaving_owns other leaves
    simp only [older (notNew owns)]
    exact owns

/-- An object that was told to leave is removed, and its handle is closed. -/
theorem Sound.removed {leaving : List Id}
    (sound : { registry with leaving := id :: leaving }.Sound limit)
    (owns : registry.handle id = some handle) (made : id ∉ registry.making) :
    { registry with
      handle := Function.update registry.handle id none
      table := registry.table.erase handle
      leaving := leaving }.Sound limit := by
  have older {other : Id} (different : other ≠ id) :
      Function.update registry.handle id none other = registry.handle other :=
    Function.update_of_ne different _ _
  obtain ⟨notLeaving, leaving_nodup⟩ := List.nodup_cons.mp sound.leaving_nodup
  constructor
  · intro first second key firstOwns secondOwns
    exact sound.distinct (Table.of_update_none firstOwns).2 (Table.of_update_none secondOwns).2
  · exact sound.loose_nodup
  · intro key isLoose other ownsKey
    exact sound.loose_free key isLoose other (Table.of_update_none ownsKey).2
  · intro key other
    by_cases same : key = handle
    · subst same
      simp only [AList.lookup_erase]
      constructor
      · nofun
      · rintro ⟨ownsKey, -⟩
        obtain ⟨different, ownsToo⟩ := Table.of_update_none ownsKey
        exact absurd (sound.distinct ownsToo owns) different
    · simp only [AList.lookup_erase_ne same]
      rw [sound.entry]
      refine and_congr_left fun _ =>
        ⟨fun ownsKey => ?_, fun ownsKey => (Table.of_update_none ownsKey).2⟩
      rw [older]
      · exact ownsKey
      · rintro rfl
        exact same (Option.some.inj (ownsKey.symm.trans owns))
  · exact sound.making_nodup
  · intro other isMade
    simp only [older (fun same => made (same ▸ isMade))]
    exact sound.making_owns other isMade
  · have room := sound.room
    have shorter := List.length_erase_le (a := handle) (l := registry.table.keys)
    simp only [AList.keys_erase] at room ⊢
    omega
  · exact leaving_nodup
  · intro other leaves
    simp only [older (fun same => notLeaving (same ▸ leaves))]
    exact sound.leaving_owns other (List.mem_cons_of_mem id leaves)

end

end Registry

end SimpleWebServer.Lib
