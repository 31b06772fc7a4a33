import SimpleWebServer.Http.HTTPMessageWriter

/-!
# The text of a message

The parts of a message as lists of bytes: a target with its query, header lines, and the
bytes that may stand in each of them.  The structures carry these conditions, so a part
that the grammar does not have cannot be written.
-/

namespace SimpleWebServer.Http

open SimpleWebServer.Base

/-- A byte that may stand in a path, a key or a value of the target. -/
def PlainByte (c : Byte) : Prop := c ≠ SP ∧ c ≠ question ∧ c ≠ equalSign ∧ c ≠ ampersand

instance (c : Byte) : Decidable (PlainByte c) :=
  inferInstanceAs (Decidable (c ≠ SP ∧ c ≠ question ∧ c ≠ equalSign ∧ c ≠ ampersand))

structure QueryPair where
  key : Bytes
  value : Bytes
  keyPlain : ∀ c ∈ key, PlainByte c
  valuePlain : ∀ c ∈ value, PlainByte c

/-- `key=value` -/
def QueryPair.text (pair : QueryPair) : Bytes := pair.key ++ equalSign :: pair.value

/-- The pairs joined by `&`. -/
def queryText (pairs : List QueryPair) : Bytes :=
  [ampersand].intercalate (pairs.map QueryPair.text)

/-- The path, and behind a `?` the query when there is one. -/
def targetText (path : Bytes) (query : List QueryPair) : Bytes :=
  path ++ if query = [] then [] else question :: queryText query

structure HeaderField where
  key : Bytes
  spaces : Nat
  value : Bytes
  keyFilled : key ≠ []
  keyPlain : ∀ c ∈ key, c ≠ colon ∧ c ≠ CR
  valueFilled : value ≠ []
  valuePlain : ∀ c ∈ value, c ≠ CR
  valueStart : value.head? ≠ some SP

/-- `key: value` with its line end. -/
def HeaderField.text (field : HeaderField) : Bytes :=
  field.key ++ colon :: (List.replicate field.spaces SP ++ field.value) ++ CRLF

/-- The number of a `Content-Length` can be read. -/
def HeaderField.Readable (field : HeaderField) : Prop :=
  field.key = contentLength → ∃ length, stoi field.value = .ok length

/-- The body length behind a field, when it was `totalLen` in front of it. -/
def HeaderField.announced (field : HeaderField) (totalLen : Int) : Int :=
  if field.key = contentLength then
    match stoi field.value with
    | .ok length => length
    | .error _ => totalLen
  else totalLen

def headerText (fields : List HeaderField) : Bytes := (fields.map HeaderField.text).flatten

/-- The body length behind the fields. -/
def announcedLength (fields : List HeaderField) (totalLen : Int) : Int :=
  fields.foldl (fun totalLen field => field.announced totalLen) totalLen

/-- The header and the body behind a start line; the header announces the length of the body. -/
structure MessageTail where
  header : List HeaderField
  body : Bytes
  readable : ∀ field ∈ header, field.Readable
  announced : announcedLength header 0 = body.length

def MessageTail.text (tail : MessageTail) : Bytes := headerText tail.header ++ CRLF ++ tail.body

structure RequestLine where
  method : HTTPMethod
  path : Bytes
  query : List QueryPair
  version : HTTPVersion
  versionText : Bytes
  pathFilled : path ≠ []
  pathPlain : ∀ c ∈ path, PlainByte c
  versionKnown : getVersionStr version = .ok versionText

theorem getVersionStr_v1_1 : getVersionStr .v1_1 = .ok (ascii "HTTP/1.1") := rfl

/-- Method, target and version, with the line end. -/
def RequestLine.text (line : RequestLine) : Bytes :=
  getMethodStr line.method ++ [SP] ++ (targetText line.path line.query ++ [SP]) ++
    (line.versionText ++ CRLF)

structure StatusLine where
  version : HTTPVersion
  versionText : Bytes
  code : Int
  versionKnown : getVersionStr version = .ok versionText
  codeKnown : (httpCodeMap.lookup code).isSome

/-- Version, code and reason phrase, with the line end. -/
def StatusLine.text (line : StatusLine) : Bytes :=
  line.versionText ++ [SP] ++ (ascii (toString line.code) ++ [SP]) ++
    (codeText line.code ++ CRLF)

/-! ## Maps filled entry by entry -/

section

variable {β γ : Type*}

/-- `map[key] = value` for one entry after another. -/
def assign (map : AList fun _ : Bytes => β) (entries : List (Bytes × β)) :
    AList fun _ : Bytes => β :=
  entries.foldl (fun map entry => map.insert entry.1 entry.2) map

@[simp]
theorem assign_nil (map : AList fun _ : Bytes => β) : assign map [] = map := rfl

@[simp]
theorem assign_cons (map : AList fun _ : Bytes => β) (entry : Bytes × β)
    (rest : List (Bytes × β)) :
    assign map (entry :: rest) = assign (map.insert entry.1 entry.2) rest := rfl

/-- A value is looked up after the assignments as before them, transformed. -/
theorem lookup_assign_map {map : AList fun _ : Bytes => β} {image : AList fun _ : Bytes => γ}
    {transform : β → γ} (related : ∀ key, image.lookup key = (map.lookup key).map transform)
    (entries : List (Bytes × β)) (key : Bytes) :
    (assign image (entries.map fun entry => (entry.1, transform entry.2))).lookup key =
      ((assign map entries).lookup key).map transform := by
  induction entries generalizing map image with
  | nil => exact related key
  | cons entry rest ih =>
      rw [List.map_cons, assign_cons, assign_cons]
      apply ih
      intro other
      by_cases same : other = entry.1
      · rw [same, AList.lookup_insert, AList.lookup_insert]
        rfl
      · rw [AList.lookup_insert_ne same, AList.lookup_insert_ne same]
        exact related other

/-- A key has a value exactly when it is assigned one or had one before. -/
theorem lookup_assign_isSome (map : AList fun _ : Bytes => β) (entries : List (Bytes × β))
    (key : Bytes) :
    ((assign map entries).lookup key).isSome ↔
      (∃ entry ∈ entries, entry.1 = key) ∨ (map.lookup key).isSome := by
  induction entries generalizing map with
  | nil => simp
  | cons entry rest ih =>
      rw [assign_cons, ih]
      by_cases same : entry.1 = key
      · subst same
        simp
      · simp [AList.lookup_insert_ne (Ne.symm same), same]

/-- Entries with distinct keys are looked up before the map they are assigned to. -/
theorem lookup_assign_of_nodup {entries : List (Sigma fun _ : Bytes => β)}
    (distinct : entries.NodupKeys) (map : AList fun _ : Bytes => β) (key : Bytes) :
    (assign map (entries.map fun entry => (entry.1, entry.2))).lookup key =
      (entries.dlookup key).or (map.lookup key) := by
  induction entries generalizing map with
  | nil => rfl
  | cons entry rest ih =>
      obtain ⟨first, value⟩ := entry
      obtain ⟨absent, restDistinct⟩ := List.nodupKeys_cons.mp distinct
      rw [List.map_cons, assign_cons, ih restDistinct]
      by_cases same : key = first
      · rw [same, List.dlookup_eq_none.mpr absent, AList.lookup_insert, List.dlookup_cons_eq]
        rfl
      · rw [AList.lookup_insert_ne same, List.dlookup_cons_ne rest ⟨first, value⟩ same]

/-- Assigning the entries of a map gives back its values. -/
theorem lookup_assign_entries (map : AList fun _ : Bytes => β) (key : Bytes) :
    (assign ∅ (map.entries.map fun entry => (entry.1, entry.2))).lookup key = map.lookup key := by
  rw [lookup_assign_of_nodup map.nodupKeys, AList.lookup_empty, Option.or_none]
  rfl

end

end SimpleWebServer.Http
