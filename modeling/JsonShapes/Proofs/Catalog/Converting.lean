import JsonShapes.Json.Order
import JsonShapes.Proofs.Catalog.Documents
import JsonShapes.Proofs.Catalog.Growing
import JsonShapes.Proofs.Json.Offending
import JsonShapes.Proofs.Shape.Faultless
import JsonShapes.Proofs.Shape.Grouping

/-!
# Conversion is all or nothing

Inference looks at all parts of data: joining an item to what is known of those before it never
fails and never ends the walk, so that data have a shape exactly if no part offends
(`Shape.ofDatum?_cases`). Only then is anything declared, and declaring does not fail. So conversion
fails for the first offender, with the catalog as it was, or not at all (`Catalog.convert_cases`).
This is so in every catalog that calls lead to (`Catalog.convert_all_or_nothing`).

Data are more than JSON values, as there may be things in them that are none, for instance a set or
a key that is a number. Where these are is listed without regard to inference (`Datum.offenders`),
in the order of the document, and the work is to show that inference meets them in that order.
Joining could keep it from doing so, in two ways: if a join failed, or if nothing more were looked
at once the items have nothing known in common. It does neither (`joinNext?_joinAll`,
`settles_joinItems?`).

## Two descriptions of a conversion

`convert` is written as the program goes: it infers, with all the guards against data that are no
JSON, then sorts, and then hoists, and each of these may refuse. `addDatum` is written as it is to
be understood: data are read as a JSON value, and the value is added. `convert_eq_addDatum` says
that they are the same function of the catalog, whatever the data, and the sorting by keys and by
texts never refuses anything on the way (`SortsTo`).
-/

namespace JsonShapes

/-! ### The shape of data -/

namespace Shape

variable {policy : Policy} {s : Shape}

/-- A well-formed shape is no placeholder for what is not known, so it counts as observed. -/
theorem WellFormed.observed?_eq (hs : s.WellFormed) : s.observed? = some s := by
  cases hs <;> rfl

/-- What is known of some items and the shape of the next one give what is known of all of them. -/
theorem joinNext?_joinAll {shapes : List Shape} (h : ∀ s ∈ shapes, s.WellFormed)
    (hs : s.WellFormed) :
    joinNext? policy (joinAll policy shapes) s = .ok (joinAll policy (shapes ++ [s])) := by
  cases hjoin : joinAll policy shapes with
  | none =>
    cases shapes with
    | nil => exact congrArg Except.ok hs.observed?_eq
    | cons first rest => exact nomatch hjoin
  | some known =>
    have hknown := (isJoin_joinAll h hjoin).wellFormed
    rw [joinNext?, join?_eq_ok hknown hs, joinAll_concat hjoin]
    exact congrArg Except.ok (isJoin_join hknown hs).wellFormed.observed?_eq

/-- The outcome of inference from data whose offenders are given: the shape of the JSON value that
the data are, or a refusal for the first offender. -/
def SettlesOn (policy : Policy) (data : Datum) : Prop :=
  Datum.Settles (ofDatum? policy data) (data.offenders.map .breach) fun s ↦
    ∃ value, data = .ofJson value ∧ s = ofJson policy value

/-- What is known of the items before does not keep the next one from being looked at. -/
theorem settles_joinItems? {items : List Datum} (hitems : ∀ item ∈ items, item.Keyed)
    (h : ∀ item ∈ items, SettlesOn policy item) {before : List Json}
    (hbefore : ∀ value ∈ before, value.Keyed) :
    Datum.Settles (joinItems? policy (joinAll policy (before.map (ofJson policy))) items)
      ((Datum.offendersOfItems items).map .breach) fun known ↦
        ∃ values, items = Datum.ofItems values ∧
          known = joinAll policy ((before ++ values).map (ofJson policy)) := by
  induction items generalizing before with
  | nil => exact .ok ⟨[], rfl, by rw [List.append_nil]⟩
  | cons item rest ih =>
    obtain ⟨hitem, hrest⟩ := List.forall_mem_cons.1 h
    rw [joinItems?, Datum.offendersOfItems, List.map_append]
    refine hitem.bind ?_
    rintro _ ⟨value, rfl, rfl⟩
    obtain ⟨hvalue, hkeyed⟩ := List.forall_mem_cons.1 hitems
    have hconcat : ∀ v ∈ before ++ [value], v.Keyed :=
      List.forall_mem_append.2 ⟨hbefore, List.forall_mem_singleton.2 (Datum.keyed_of_ofJson hvalue)⟩
    -- what is known goes on to the next item, whatever it is
    have hnext : joinNext? policy (joinAll policy (before.map (ofJson policy)))
        (ofJson policy value) = .ok (joinAll policy ((before ++ [value]).map (ofJson policy))) := by
      rw [List.map_append]
      refine joinNext?_joinAll ?_ (wellFormed_ofJson (Datum.keyed_of_ofJson hvalue))
      simpa using fun v hv ↦ wellFormed_ofJson (hbefore v hv)
    rw [hnext]
    refine (ih hkeyed hrest hconcat).imp ?_
    rintro _ ⟨values, rfl, rfl⟩
    exact ⟨value :: values, rfl, by rw [List.append_assoc, List.singleton_append]⟩

/-- A name that is no text offends before its value is looked at. -/
theorem settles_ofDatumMembers? {members : List (Datum.Name × Datum)}
    (h : ∀ member ∈ members, SettlesOn policy member.2) :
    Datum.Settles (ofDatumMembers? policy members)
      ((Datum.offendersOfMembers members).map .breach) fun fields ↦
        ∃ values, members = Datum.ofMembers values ∧ fields = ofMemberList policy values := by
  induction members with
  | nil => exact .ok ⟨[], rfl, rfl⟩
  | cons member rest ih =>
    obtain ⟨hvalue, hrest⟩ := List.forall_mem_cons.1 h
    obtain ⟨name, data⟩ := member
    cases name with
    | foreign kind => rfl
    | text name =>
      rw [ofDatumMembers?, Datum.offendersOfMembers, List.map_append]
      refine hvalue.bind ?_
      rintro _ ⟨value, hvalue, rfl⟩
      refine (ih hrest).map ?_
      rintro _ ⟨values, rfl, rfl⟩
      exact ⟨_, rfl, (name, value) :: values, by rw [Datum.ofMembers, ← hvalue], rfl⟩

/-- Data have the shape of the JSON value that they are, unless a part offends. -/
theorem settlesOn {data : Datum} (h : data.Keyed) : SettlesOn policy data := by
  induction h with
  | array hitems ih =>
    rw [SettlesOn, ofDatum?, Datum.offenders]
    refine (@settles_joinItems? policy _ hitems ih [] (List.forall_mem_nil _)).map ?_
    rintro _ ⟨values, rfl, rfl⟩
    rw [List.nil_append, ← ofItems_eq_map]
    refine ⟨ofJson policy (.array values), ?_, .array values, rfl, rfl⟩
    rw [ofJson]
    cases joinAll policy (ofItems policy values) <;> rfl
  | object _ _ ih =>
    rw [SettlesOn, ofDatum?, Datum.offenders]
    refine (settles_ofDatumMembers? ih).map ?_
    rintro _ ⟨values, rfl, rfl⟩
    exact ⟨_, rfl, .object values, rfl, rfl⟩
  | null => exact .ok ⟨.null, rfl, rfl⟩
  | bool b => exact .ok ⟨.bool b, rfl, rfl⟩
  | number n => exact .ok ⟨.number n, rfl, rfl⟩
  | string s => exact .ok ⟨.string s, rfl, rfl⟩
  | foreign kind => rfl

/-- Either a part of the data offends, and the first that does keeps them from having a shape, or
they are a JSON value and have its shape. -/
theorem ofDatum?_cases (policy : Policy) {data : Datum} (h : data.Keyed) :
    (∃ first rest, data.offenders = first :: rest ∧
      ofDatum? policy data = .error (.breach first)) ∨
    data.offenders = [] ∧ ∃ value : Json, value.Keyed ∧ data = .ofJson value ∧
      ofDatum? policy data = .ok (ofJson policy value) := by
  have hsettles : SettlesOn policy data := settlesOn h
  rw [SettlesOn] at hsettles
  cases hoffenders : data.offenders with
  | nil =>
    rw [hoffenders] at hsettles
    obtain ⟨_, hshape, value, rfl, rfl⟩ := hsettles
    exact .inr ⟨rfl, value, Datum.keyed_of_ofJson h, rfl, hshape⟩
  | cons first rest =>
    rw [hoffenders] at hsettles
    exact .inl ⟨first, rest, rfl, hsettles⟩

end Shape

/-! ### Sorting by texts -/

namespace Json

/-- Texts can be compared, any two of them. -/
theorem comparable_texts (texts : List String) : comparable (texts.map .string) = true := by
  induction texts with
  | nil => rfl
  | cons text rest ih =>
    rw [List.map_cons, comparable, ih, Bool.and_true, List.all_map]
    exact List.all_eq_true.2 fun _ _ ↦ rfl

/-- Sorting the values by texts is not refused, and gives the second list. -/
def SortsTo {α : Type} (text : α → String) (values sorted : List α) : Prop :=
  ∀ source, sortKeyed source false (values.map fun a ↦ (.string (text a), a)) = .ok sorted

/-- What is sorted by texts always can be. -/
theorem sortsTo_mergeSort {α : Type} (text : α → String) (values : List α) :
    SortsTo text values (values.mergeSort fun a b ↦ text a ≤ text b) := by
  intro source
  have hkeys : (values.map fun a ↦ (Json.string (text a), a)).map (·.1) =
      (values.map text).map .string := by
    rw [List.map_map, List.map_map]
    rfl
  rw [sortKeyed, hkeys, if_pos (comparable_texts _)]
  refine congrArg Except.ok ?_
  rw [← List.map_mergeSort (r := fun a b ↦ text a ≤ text b), List.map_map]
  · exact List.map_id _
  · intro a _ b _
    show decide (text a ≤ text b) = !decide (text b < text a)
    rw [← decide_not, decide_eq_decide, String.not_lt]

/-- In particular JSON values are sorted by their texts. -/
theorem sortsTo_sortedByText (values : List Json) :
    SortsTo compact values (sortedByText values) := by
  have hsorted : sortedByText values = values.mergeSort fun a b ↦ a.compact ≤ b.compact := by
    rw [sortedByText, ← List.map_mergeSort (r := fun a b ↦ a.compact ≤ b.compact), List.map_map]
    · exact List.map_id _
    · exact fun _ _ _ _ ↦ rfl
  exact hsorted ▸ sortsTo_mergeSort compact values

end Json

namespace Catalog

open Hoisting

variable {c c' : Catalog} {policy : Policy} {document : String} {data : Datum}

/-- The members of a union are hoisted in the order to which they are sorted. -/
theorem exists_sorted_members (pointer : String) (keyed : List (String × Deferred)) :
    ∃ sorted, Json.SortsTo (·.1) keyed sorted ∧
      Hoisting.members pointer keyed = sorted.mapM fun k ↦ k.2 pointer :=
  ⟨_, Json.sortsTo_mergeSort (·.1) keyed, rfl⟩

/-- The members of a union are encoded in the order to which their encodings are sorted. -/
theorem exists_sorted_encodings (ms : List Shape) :
    ∃ sorted, Json.SortsTo Json.compact (Shape.encodings ms) sorted ∧
      (Shape.union ms).encoding = .array [.string "union", .array sorted] :=
  ⟨_, Json.sortsTo_sortedByText (Shape.encodings ms), by rw [Shape.encoding]⟩

/-- The fields of an object are encoded in the order to which they are sorted. -/
theorem exists_sorted_fields (fs : List (Field Shape)) (order : List String) :
    ∃ sorted, Json.SortsTo (·.name) (Shape.encodedFields fs) sorted ∧
      (Shape.object fs order).encoding = .array [.string "object", .array (sorted.map fun f ↦
        .array [.string f.name, .bool f.optional, f.content])] :=
  ⟨_, Json.sortsTo_mergeSort (·.name) (Shape.encodedFields fs), by rw [Shape.encoding]⟩

/-- A conversion hoists the shape of the data, if they have one. -/
theorem convert_apply (policy : Policy) (document : String) (data : Datum) (c : Catalog) :
    convert policy document data c =
      match Shape.ofDatum? policy data with
      | .ok s => ((s.hoist document "" c).1.mapError .breach, (s.hoist document "" c).2)
      | .error refusal => (.error refusal, c) := by
  rw [convert]
  cases Shape.ofDatum? policy data <;> rfl

/-- Either a part of the data offends, and conversion names the first that does and declares
nothing, or they are a JSON value, and it does what adding the value does. -/
theorem convert_cases (hc : Sound Shape.Sorted c) (policy : Policy) (document : String)
    (h : data.Keyed) :
    (∃ first rest, data.offenders = first :: rest ∧
      convert policy document data c = (.error (.breach first), c)) ∨
    data.offenders = [] ∧ ∃ value t c', data = .ofJson value ∧
      convert policy document data c = (.ok t, c') ∧
      addValue policy document value c = (.ok t, c') := by
  rw [convert_apply]
  rcases Shape.ofDatum?_cases policy h with
    ⟨first, rest, hoffenders, hrefused⟩ | ⟨hoffenders, value, hvalue, hdata, hshape⟩
  · exact .inl ⟨first, rest, hoffenders, by rw [hrefused]⟩
  · obtain ⟨t, c', hrun, -⟩ := (records_addValue policy document hvalue hc).yields
    have hhoist : (Shape.ofJson policy value).hoist document "" c = (.ok t, c') := hrun
    refine .inr ⟨hoffenders, value, t, c', hdata, ?_, hrun⟩
    rw [hshape]
    simp only [hhoist]
    rfl

/-- It makes no difference whether data are found to be JSON before their shape is inferred or while
it is. -/
theorem convert_eq_addDatum (policy : Policy) (document : String) (h : data.Keyed) (c : Catalog) :
    convert policy document data c =
      ((addDatum policy document data c).1.mapError .breach,
        (addDatum policy document data c).2) := by
  rw [convert_apply, addDatum]
  rcases Shape.ofDatum?_cases policy h with
    ⟨first, rest, hoffenders, hrefused⟩ | ⟨-, value, -, rfl, hshape⟩
  · have hsettles := Datum.settles_toJson data
    rw [hoffenders] at hsettles
    have hjson : data.toJson = .error first := hsettles
    rw [hrefused, hjson]
    rfl
  · rw [hshape, Datum.toJson_ofJson]
    rfl

/-- Conversion is all or nothing. In a catalog that any calls made, it fails exactly if a part of
the data offends, wherever that part is, and then it names the first offender in the order of the
document and leaves the catalog as it was. Otherwise the data are a JSON value, and it succeeds as
adding the value does. All that it sorts on the way, the members of unions and their encodings and
the fields of objects, it sorts by texts, which is never refused. -/
theorem convert_all_or_nothing {calls : List Call} (hcalls : ∀ call ∈ calls, call.Sorted)
    (policy : Policy) (document : String) {data : Datum} (h : data.Keyed) :
    let c := empty.after calls
    ((∃ refusal c', convert policy document data c = (.error refusal, c')) ↔
      ∃ breach, data.Offends breach) ∧
    (∀ refusal c', convert policy document data c = (.error refusal, c') →
      c' = c ∧ ∃ first rest, data.offenders = first :: rest ∧ refusal = .breach first) ∧
    (∀ breach, breach ∈ data.offenders ↔ data.Offends breach) ∧
    ((¬∃ breach, data.Offends breach) → ∃ value t c', data = .ofJson value ∧
      convert policy document data c = (.ok t, c') ∧
      addValue policy document value c = (.ok t, c')) ∧
    (∀ pointer keyed, ∃ sorted, Json.SortsTo (·.1) keyed sorted ∧
      Hoisting.members pointer keyed = sorted.mapM fun k ↦ k.2 pointer) ∧
    (∀ ms, ∃ sorted, Json.SortsTo Json.compact (Shape.encodings ms) sorted ∧
      (Shape.union ms).encoding = .array [.string "union", .array sorted]) ∧
    ∀ fs order, ∃ sorted, Json.SortsTo (·.name) (Shape.encodedFields fs) sorted ∧
      (Shape.object fs order).encoding = .array [.string "object", .array (sorted.map fun f ↦
        .array [.string f.name, .bool f.optional, f.content])] := by
  intro c
  have hsound : Sound Shape.Sorted c :=
    (reaches_after_of_sorted hcalls empty).sound (sound_empty Shape.Sorted)
  have hoffends : (∃ breach, data.Offends breach) ↔ ∃ breach, breach ∈ data.offenders :=
    exists_congr fun _ ↦ Datum.mem_offenders_iff.symm
  rw [hoffends]
  rcases convert_cases hsound policy document h with
    ⟨first, rest, hoffenders, hrun⟩ | ⟨hoffenders, value, t, c', hvalue, hrun, hadd⟩
  · have hfirst : ∃ breach, breach ∈ data.offenders :=
      ⟨first, hoffenders ▸ List.mem_cons_self⟩
    refine ⟨iff_of_true ⟨_, _, hrun⟩ hfirst, fun refusal c' herror ↦ ?_,
      fun _ ↦ Datum.mem_offenders_iff, fun hnone ↦ absurd hfirst hnone, exists_sorted_members,
      exists_sorted_encodings, exists_sorted_fields⟩
    rw [hrun, Prod.mk.injEq, Except.error.injEq] at herror
    exact ⟨herror.2.symm, first, rest, hoffenders, herror.1.symm⟩
  · have hnone : ¬∃ breach, breach ∈ data.offenders := by
      rw [hoffenders]
      exact fun ⟨_, h⟩ ↦ List.not_mem_nil h
    refine ⟨iff_of_false ?_ hnone, fun refusal c' herror ↦ ?_,
      fun _ ↦ Datum.mem_offenders_iff, fun _ ↦ ⟨value, t, c', hvalue, hrun, hadd⟩,
      exists_sorted_members, exists_sorted_encodings, exists_sorted_fields⟩
    · rintro ⟨refusal, c', herror⟩
      exact nomatch hrun.symm.trans herror
    · exact nomatch hrun.symm.trans herror

/-- A set within an item that comes when the items before have nothing known in common any more,
with further offenders behind it: a key that is no text, and its value. -/
theorem convert_all_or_nothing_absorbed :
    let calls : List Call := [.addValue .union "1.json" (.array []), .insert .emptyArray "1.json"]
    let data : Datum := .array [.number (.int 1), .string "",
      .object [(.text "a", .array [.foreign "set"]), (.foreign "int", .foreign "bytes")]]
    ((∀ call ∈ calls, call.Sorted) ∧ data.Keyed) ∧
      data.offenders = [.notJson "set", .nameNotText "int", .notJson "bytes"] ∧
      convert .unknown "2.json" data (empty.after calls) =
        (.error (.breach (.notJson "set")), empty.after calls) := by
  intro calls data
  have hcalls : ∀ call ∈ calls, call.Sorted := by
    simpa [calls, Call.Sorted] using .emptyArray
  have hkeyed : data.Keyed := by
    refine .array ?_
    simp only [List.forall_mem_cons, List.not_mem_nil, false_imp_iff, implies_true, and_true]
    refine ⟨.number _, .string _, .object (by decide) ?_⟩
    simpa using ⟨.array (by simpa using .foreign _), .foreign _⟩
  have hoffenders : data.offenders = [.notJson "set", .nameNotText "int", .notJson "bytes"] := rfl
  obtain ⟨hfails, hfirst, hlisted, -⟩ := convert_all_or_nothing hcalls .unknown "2.json" hkeyed
  obtain ⟨refusal, c', hrun⟩ := hfails.2 ⟨.notJson "set", (hlisted _).1 (hoffenders ▸ .head _)⟩
  obtain ⟨rfl, first, rest, hmet, rfl⟩ := hfirst refusal c' hrun
  obtain ⟨rfl, -⟩ := List.cons.inj (hmet.symm.trans hoffenders)
  exact ⟨⟨hcalls, hkeyed⟩, hoffenders, hrun⟩

end Catalog

end JsonShapes
