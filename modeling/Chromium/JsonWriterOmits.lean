import Chromium.JsonWriter

/-!
# Binary values that the writer omits

`JSONWriter::BuildJSONString` with `OPTIONS_OMIT_BINARY_VALUES` passes over the binary values of a
list or a dictionary. Whether an entry has a comma before it is decided by its place among all
entries, so what is written is the value without its binary values unless a list or a dictionary
begins with a binary value and has an entry of another type behind it.
-/
namespace Chromium.Json

open WireFormat StringNumber

variable {δ : Type}

/-- The same options, with or without `OPTIONS_OMIT_BINARY_VALUES`. -/
abbrev WriterOptions.setOmit (writer : WriterOptions) (omits : Bool) : WriterOptions :=
  { writer with omitBinaryValues := omits }

def Value.isBinary : Value δ → Bool
  | .binary _ => true
  | _ => false

mutual

/-- The value without the binary items of its lists and the binary entries of its dictionaries. -/
def Value.withoutBinaries : Value δ → Value δ
  | .list items => .list (itemsWithoutBinaries items)
  | .dictionary entries => .dictionary (entriesWithoutBinaries entries)
  | value => value

def itemsWithoutBinaries : List (Value δ) → List (Value δ)
  | [] => []
  | value :: items =>
    if value.isBinary then itemsWithoutBinaries items
    else value.withoutBinaries :: itemsWithoutBinaries items

def entriesWithoutBinaries : List (Text × Value δ) → List (Text × Value δ)
  | [] => []
  | (key, value) :: entries =>
    if value.isBinary then entriesWithoutBinaries entries
    else (key, value.withoutBinaries) :: entriesWithoutBinaries entries

end

/-- A binary value comes first and one of another type behind it. -/
def leadsWithBinary : List (Value δ) → Bool
  | [] => false
  | value :: values => value.isBinary && values.any fun value => !value.isBinary

mutual

/-- No list and no dictionary, at any depth, leads with a binary value. -/
def Value.noLeadingBinary : Value δ → Bool
  | .list items => !leadsWithBinary items && noLeadingBinaryItems items
  | .dictionary entries =>
    !leadsWithBinary (entries.map Prod.snd) && noLeadingBinaryEntries entries
  | _ => true

def noLeadingBinaryItems : List (Value δ) → Bool
  | [] => true
  | value :: items => value.noLeadingBinary && noLeadingBinaryItems items

def noLeadingBinaryEntries : List (Text × Value δ) → Bool
  | [] => true
  | (_, value) :: entries => value.noLeadingBinary && noLeadingBinaryEntries entries

end

lemma noLeadingBinary_of_isBinary {value : Value δ} (h : value.isBinary = true) :
    value.noLeadingBinary = true := by
  cases value with
  | binary data => rfl
  | _ => cases h

lemma isBinary_withoutBinaries {value : Value δ} (h : value.isBinary = false) :
    value.withoutBinaries.isBinary = false := by
  cases value with
  | binary data => cases h
  | _ => rfl

/-! ### Equal texts, or a text that is too long -/

/-- The text that is written is the expected one, or else longer. -/
def Written (text expected : Text) (ok : Bool) : Prop :=
  if ok then text = expected else expected.length < text.length

namespace Written
variable {s t s' t' : Text} {a b : Bool}

lemma refl (s : Text) : Written s s true := rfl

lemma length_le (h : Written s t a) : t.length ≤ s.length := by
  cases a with
  | true => exact (congrArg List.length h).ge
  | false => exact Nat.le_of_lt h

lemma append (h : Written s t a) (h' : Written s' t' b) :
    Written (s ++ s') (t ++ t') (a && b) := by
  have hle := h.length_le
  have hle' := h'.length_le
  cases a with
  | true =>
    cases b with
    | true => exact congrArg₂ _ h h'
    | false =>
      have hlt : t'.length < s'.length := h'
      change (t ++ t').length < (s ++ s').length
      rw [List.length_append, List.length_append]
      omega
  | false =>
    have hlt : t.length < s.length := h
    change (t ++ t').length < (s ++ s').length
    rw [List.length_append, List.length_append]
    omega

/-- The same text around both. -/
lemma around (h : Written s t a) (pre gap post : Text) :
    Written (pre ++ s ++ gap ++ post) (pre ++ t ++ gap ++ post) a := by
  have hboth := (((refl pre).append h).append (refl gap)).append (refl post)
  rwa [Bool.true_and, Bool.and_true, Bool.and_true] at hboth

lemma eq_iff (h : Written s t a) : s = t ↔ a = true := by
  cases a with
  | true => exact iff_of_true h rfl
  | false =>
    refine iff_of_false ?_ Bool.false_ne_true
    rintro rfl
    exact lt_irrefl _ h

end Written

/-! ### Separators -/

/-- Parts one behind another, where `none` is an entry that is passed over. There is a separator
before each part but the first entry. -/
def joined (separator : Text) : Bool → List (Option Text) → Text
  | _, [] => []
  | _, none :: parts => joined separator false parts
  | first, some part :: parts =>
    (if first then [] else separator) ++ part ++ joined separator false parts

/-- An entry that is passed over comes first and one that is not behind it. -/
def leadsWithNone : List (Option Text) → Bool
  | [] => false
  | part :: parts => part.isNone && parts.any Option.isSome

/-- The parts that are written, against the expected ones. -/
inductive WrittenParts : List (Option Text) → List (Option Text) → Bool → Prop
  | nil : WrittenParts [] [] true
  | omitted {parts expected : List (Option Text)} {ok : Bool} :
    WrittenParts parts expected ok → WrittenParts (none :: parts) expected ok
  | written {parts expected : List (Option Text)} {s t : Text} {a b : Bool} :
    Written s t a → WrittenParts parts expected b →
      WrittenParts (some s :: parts) (some t :: expected) (a && b)

namespace WrittenParts
variable {parts expected : List (Option Text)} {ok : Bool}

/-- Behind the first entry the separators are right. -/
lemma joined_false (h : WrittenParts parts expected ok) (separator : Text) :
    Written (joined separator false parts) (joined separator false expected) ok := by
  induction h with
  | nil => exact Written.refl _
  | omitted _ ih => exact ih
  | written hpart _ ih =>
    simp only [joined]
    exact (Written.append (Written.refl _) hpart).append ih

/-- Nothing is expected when every entry is passed over. -/
lemma expected_eq (h : WrittenParts parts expected ok) :
    expected = [] ↔ parts.any Option.isSome = false := by
  induction h with
  | nil => simp
  | omitted _ ih => simpa using ih
  | written _ _ _ => simp

/-- No entry that is expected is passed over. -/
lemma joined_false_eq (h : WrittenParts parts expected ok) (separator : Text)
    (hne : expected ≠ []) :
    joined separator false expected = separator ++ joined separator true expected := by
  induction h with
  | nil => exact absurd rfl hne
  | omitted _ ih => exact ih hne
  | written _ _ _ => simp [joined]

/-- From the first entry on there is one separator too many when that entry is passed over and
another one is not. -/
lemma joined_true (h : WrittenParts parts expected ok) {separator : Text} (hsep : separator ≠ []) :
    Written (joined separator true parts) (joined separator true expected)
      (!leadsWithNone parts && ok) := by
  cases h with
  | nil => exact Written.refl _
  | @omitted parts _ _ htail =>
    have hrest := htail.joined_false separator
    rw [joined, leadsWithNone]
    cases hany : parts.any Option.isSome with
    | false =>
      obtain rfl := htail.expected_eq.mpr hany
      exact hrest
    | true =>
      have hne : expected ≠ [] := fun hnil => by
        rw [htail.expected_eq.mp hnil] at hany
        exact Bool.false_ne_true hany
      have hlength := hrest.length_le
      rw [htail.joined_false_eq separator hne, List.length_append] at hlength
      have hpos := List.length_pos_of_ne_nil hsep
      change (joined separator true expected).length < (joined separator false parts).length
      omega
  | written hpart htail =>
    simp only [joined, leadsWithNone, if_true, List.nil_append]
    exact hpart.append (htail.joined_false separator)

end WrittenParts

/-! ### Lists and dictionaries -/

section Parts
variable (format : DoubleFormat δ) (writer : WriterOptions)

/-- What the loop over a list writes for one item, without the separator. -/
def itemPart (depth : ℕ) (value : Value δ) : Option Text :=
  if writer.omitBinaryValues && value.isBinary then none
  else some (buildJSONString format writer depth value)

/-- What the loop over a dictionary writes for one entry, without the separator. -/
def entryPart (depth : ℕ) (entry : Text × Value δ) : Option Text :=
  if writer.omitBinaryValues && entry.2.isBinary then none
  else
    some (pretty writer (indentLine (depth + 1)) ++
      (jsonDoubleQuote (IcuUtf.utf8ToUtf16 entry.1) ++
        ((if writer.prettyPrint then ascii ": " else ascii ":") ++
          buildJSONString format writer (depth + 1) entry.2)))

lemma buildItems_eq_joined (depth : ℕ) (first : Bool) (items : List (Value δ)) :
    buildItems format writer depth first items =
      joined (ascii "," ++ pretty writer (ascii " ")) first
        (items.map (itemPart format writer depth)) := by
  induction items generalizing first with
  | nil => rfl
  | cons value items ih =>
    rw [List.map_cons, itemPart]
    cases value with
    | binary data =>
      cases homit : writer.omitBinaryValues with
      | false => simp [buildItems, joined, homit, ih]
      | true => simp [buildItems, joined, homit, ih, Value.isBinary]
    | _ => simp [buildItems, joined, ih, Value.isBinary]

lemma buildEntries_eq_joined (depth : ℕ) (first : Bool) (entries : List (Text × Value δ)) :
    buildEntries format writer depth first entries =
      joined (ascii "," ++ pretty writer (kPrettyPrintLineEnding writer.windows)) first
        (entries.map (entryPart format writer depth)) := by
  induction entries generalizing first with
  | nil => rfl
  | cons entry entries ih =>
    obtain ⟨key, value⟩ := entry
    rw [List.map_cons, entryPart]
    cases value with
    | binary data =>
      cases homit : writer.omitBinaryValues with
      | false => simp [buildEntries, joined, homit, ih]
      | true => simp [buildEntries, joined, homit, ih, Value.isBinary]
    | _ => simp [buildEntries, joined, ih, Value.isBinary]

lemma isSome_itemPart (homit : writer.omitBinaryValues = true) (depth : ℕ) (value : Value δ) :
    (itemPart format writer depth value).isSome = !value.isBinary := by
  rw [itemPart, homit, Bool.true_and]
  cases value.isBinary with
  | false => rfl
  | true => rfl

lemma isSome_entryPart (homit : writer.omitBinaryValues = true) (depth : ℕ)
    (entry : Text × Value δ) :
    (entryPart format writer depth entry).isSome = !entry.2.isBinary := by
  rw [entryPart, homit, Bool.true_and]
  cases entry.2.isBinary with
  | false => rfl
  | true => rfl

lemma comma_ne_nil (text : Text) : ascii "," ++ text ≠ [] := List.cons_ne_nil _ _

end Parts

lemma leadsWithNone_map {α : Type*} (part : α → Option Text) (value : α → Value δ)
    (hpart : ∀ a, (part a).isSome = !(value a).isBinary) (as : List α) :
    leadsWithNone (as.map part) = leadsWithBinary (as.map value) := by
  cases as with
  | nil => rfl
  | cons a as =>
    have hnone : (part a).isNone = (value a).isBinary := by
      rw [← Option.not_isSome, hpart, Bool.not_not]
    have hany : (as.map part).any Option.isSome =
        (as.map value).any fun value => !value.isBinary := by
      simp only [List.any_map, Function.comp_def, hpart]
    rw [List.map_cons, List.map_cons, leadsWithNone, leadsWithBinary, hnone, hany]

section Omits
variable (format : DoubleFormat δ) (writer : WriterOptions) (omits : Bool)

mutual

/-- What is written for a value, against the value without its binary values. -/
theorem written_value (value : Value δ) (depth : ℕ) :
    Written (buildJSONString format (writer.setOmit true) depth value)
      (buildJSONString format (writer.setOmit omits) depth
        value.withoutBinaries) value.noLeadingBinary := by
  match value with
  | .null | .boolean _ | .integer _ | .double _ | .string _ | .binary _ => exact Written.refl _
  | .list items =>
    have hparts := written_items items depth
    have hlead := leadsWithNone_map (itemPart format (writer.setOmit true) depth) id
      (isSome_itemPart format (writer.setOmit true) rfl depth) items
    rw [List.map_id] at hlead
    rw [buildJSONString, Value.withoutBinaries, buildJSONString, Value.noLeadingBinary,
      buildItems_eq_joined, buildItems_eq_joined, ← hlead]
    exact (hparts.joined_true (comma_ne_nil _)).around _ _ _
  | .dictionary entries =>
    have hparts := written_entries entries depth
    have hlead := leadsWithNone_map (entryPart format (writer.setOmit true) depth) Prod.snd
      (isSome_entryPart format (writer.setOmit true) rfl depth) entries
    rw [buildJSONString, Value.withoutBinaries, buildJSONString, Value.noLeadingBinary,
      buildEntries_eq_joined, buildEntries_eq_joined, ← hlead]
    exact (hparts.joined_true (comma_ne_nil _)).around _ _ _

theorem written_items (items : List (Value δ)) (depth : ℕ) :
    WrittenParts (items.map (itemPart format (writer.setOmit true) depth))
      ((itemsWithoutBinaries items).map
        (itemPart format (writer.setOmit omits) depth))
      (noLeadingBinaryItems items) := by
  match items with
  | [] => exact .nil
  | value :: items =>
    have hvalue := written_value value depth
    have hitems := written_items items depth
    rw [List.map_cons, itemsWithoutBinaries, noLeadingBinaryItems, itemPart, Bool.true_and]
    cases hbinary : value.isBinary with
    | true =>
      rw [if_pos rfl, if_pos rfl, noLeadingBinary_of_isBinary hbinary, Bool.true_and]
      exact hitems.omitted
    | false =>
      rw [if_neg Bool.false_ne_true, if_neg Bool.false_ne_true, List.map_cons, itemPart,
        isBinary_withoutBinaries hbinary, Bool.and_false, if_neg Bool.false_ne_true]
      exact .written hvalue hitems

theorem written_entries (entries : List (Text × Value δ)) (depth : ℕ) :
    WrittenParts (entries.map (entryPart format (writer.setOmit true) depth))
      ((entriesWithoutBinaries entries).map
        (entryPart format (writer.setOmit omits) depth))
      (noLeadingBinaryEntries entries) := by
  match entries with
  | [] => exact .nil
  | (key, value) :: entries =>
    have hvalue := written_value value (depth + 1)
    have hentries := written_entries entries depth
    rw [List.map_cons, entriesWithoutBinaries, noLeadingBinaryEntries, entryPart, Bool.true_and]
    cases hbinary : value.isBinary with
    | true =>
      rw [if_pos rfl, if_pos rfl, noLeadingBinary_of_isBinary hbinary, Bool.true_and]
      exact hentries.omitted
    | false =>
      rw [if_neg Bool.false_ne_true, if_neg Bool.false_ne_true, List.map_cons, entryPart,
        isBinary_withoutBinaries hbinary, Bool.and_false, if_neg Bool.false_ne_true]
      refine .written ?_ hentries
      exact .append (.refl _) (.append (.refl _) (.append (.refl _) hvalue))

end

/-- Written with the option, a value is its text without the binary values if and only if no list
and no dictionary in it leads with a binary value. -/
theorem omitBinaryValues_iff (node : Value δ) :
    writeWithOptions format (writer.setOmit true) node =
        writeWithOptions format (writer.setOmit omits) node.withoutBinaries ↔
      node.noLeadingBinary = true := by
  have hnode := written_value format writer omits node 0
  rw [← hnode.eq_iff, writeWithOptions, writeWithOptions]
  exact List.append_left_inj _

end Omits

/-- A list that begins with a binary value is written with a comma before its first item. -/
theorem omitBinaryValues_list :
    ¬ ∀ (format : DoubleFormat Empty) (writer : WriterOptions) (node : Value Empty),
      writeWithOptions format (writer.setOmit true) node =
        writeWithOptions format (writer.setOmit true) node.withoutBinaries := by
  intro h
  have hlist := h ⟨fun _ => [], fun _ => none⟩ {} (.list [.binary [], .boolean true])
  exact absurd (congrArg List.length hlist) (by decide)

end Chromium.Json
