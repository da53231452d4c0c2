import JsonShapes.Json.Datum
import JsonShapes.Proofs.Json.Keyed
import Mathlib.Data.List.Basic

/-!
# Offending parts

A part of data offends if it is no JSON, or if it is the name of a member and no text
(`Datum.Offends`). The offenders have an order, that of the document (`Datum.offenders`). What goes
through data in this order and stops at the first offender is settled by them (`Datum.Settles`), as
the reading of data as a JSON value is (`Datum.settles_toJson`).

## Why an order

What goes through data and stops at the first part that it cannot take is told by the list of all
such parts: with the empty list it ends well, and otherwise with the head of the list. This composes
(`Settles.bind`): the list of two steps is that of the first and then that of the second, also if
the first has met something and the second is never made. So the offenders of data are defined
without regard to what stops where, and every walk over data in document order is compared to the
same list.
-/

namespace JsonShapes.Datum

/-- Induction over data: what holds of all items and members passes to the whole. -/
@[elab_as_elim, induction_eliminator]
theorem induction {motive : Datum → Prop} (null : motive .null) (bool : ∀ b, motive (.bool b))
    (number : ∀ n, motive (.number n)) (string : ∀ s, motive (.string s))
    (array : ∀ items, (∀ item ∈ items, motive item) → motive (.array items))
    (object : ∀ members, (∀ member ∈ members, motive member.2) → motive (.object members))
    (foreign : ∀ kind, motive (.foreign kind)) (data : Datum) : motive data :=
  @Datum.rec motive (fun items ↦ ∀ item ∈ items, motive item)
    (fun members ↦ ∀ member ∈ members, motive member.2) (fun member ↦ motive member.2)
    null bool number string array object foreign
    (fun _ h ↦ absurd h List.not_mem_nil)
    (fun _ _ hi his _ h ↦ (List.mem_cons.1 h).elim (fun e ↦ e ▸ hi) (his _))
    (fun _ h ↦ absurd h List.not_mem_nil)
    (fun _ _ hm hms _ h ↦ (List.mem_cons.1 h).elim (fun e ↦ e ▸ hm) (hms _))
    (fun _ _ h ↦ h) data

/-! ### Offenders -/

/-- What a name is refused for. -/
def Name.offender? : Name → Option Breach
  | .text _ => none
  | .foreign kind => some (.nameNotText kind)

/-- Somewhere in the data is a part that is refused for this. -/
inductive Offends : Datum → Breach → Prop
  /-- A thing offends that is no JSON value. -/
  | self (kind : String) : Offends (.foreign kind) (.notJson kind)
  /-- An item of an array may offend. -/
  | item {items : List Datum} {item : Datum} {breach : Breach} (hitem : item ∈ items)
      (h : Offends item breach) : Offends (.array items) breach
  /-- A key offends that is no text. -/
  | name {members : List (Name × Datum)} {member : Name × Datum} {breach : Breach}
      (hmember : member ∈ members) (h : member.1.offender? = some breach) :
      Offends (.object members) breach
  /-- The value under a key may offend, be the key a text or not. -/
  | value {members : List (Name × Datum)} {member : Name × Datum} {breach : Breach}
      (hmember : member ∈ members) (h : Offends member.2 breach) : Offends (.object members) breach

mutual

/-- What the parts of data are refused for, in the order of the document: a name comes before its
value. -/
def offenders : Datum → List Breach
  | .array items => offendersOfItems items
  | .object members => offendersOfMembers members
  | .foreign kind => [.notJson kind]
  | _ => []

/-- The offenders among the items of an array and in them. -/
def offendersOfItems : List Datum → List Breach
  | [] => []
  | item :: rest => offenders item ++ offendersOfItems rest

/-- The offenders among the members of an object and in them. -/
def offendersOfMembers : List (Name × Datum) → List Breach
  | [] => []
  | (name, value) :: rest => name.offender?.toList ++ offenders value ++ offendersOfMembers rest

end

/-- The offenders among items are those of each item, one item after another. -/
theorem offendersOfItems_eq (items : List Datum) :
    offendersOfItems items = items.flatMap offenders := by
  induction items with
  | nil => rfl
  | cons item rest ih => rw [offendersOfItems, ih, List.flatMap_cons]

/-- The offenders among members are those of each member, its name before its value. -/
theorem offendersOfMembers_eq (members : List (Name × Datum)) : offendersOfMembers members =
    members.flatMap fun member ↦ member.1.offender?.toList ++ member.2.offenders := by
  induction members with
  | nil => rfl
  | cons member rest ih => rw [offendersOfMembers, ih, List.flatMap_cons]

variable {data : Datum} {breach : Breach}

/-- The list has every offender there is. Both ways by induction, over the data and over where the
offender lies. -/
theorem mem_offenders_iff : breach ∈ data.offenders ↔ data.Offends breach := by
  constructor
  · intro h
    induction data with
    | array items ih =>
      rw [offenders, offendersOfItems_eq] at h
      obtain ⟨item, hitem, h⟩ := List.mem_flatMap.1 h
      exact .item hitem (ih item hitem h)
    | object members ih =>
      rw [offenders, offendersOfMembers_eq] at h
      obtain ⟨member, hmember, h⟩ := List.mem_flatMap.1 h
      rcases List.mem_append.1 h with h | h
      · exact .name hmember (Option.mem_toList.1 h)
      · exact .value hmember (ih member hmember h)
    | foreign kind =>
      obtain rfl := List.mem_singleton.1 h
      exact .self kind
    | _ => exact nomatch h
  · intro h
    induction h with
    | self kind => exact List.mem_singleton_self _
    | item hitem _ ih =>
      rw [offenders, offendersOfItems_eq]
      exact List.mem_flatMap.2 ⟨_, hitem, ih⟩
    | name hmember h =>
      rw [offenders, offendersOfMembers_eq]
      exact List.mem_flatMap.2 ⟨_, hmember, List.mem_append_left _ (Option.mem_toList.2 h)⟩
    | value hmember _ ih =>
      rw [offenders, offendersOfMembers_eq]
      exact List.mem_flatMap.2 ⟨_, hmember, List.mem_append_right _ ih⟩

/-! ### JSON -/

/-- The data of items, as a map. -/
theorem ofItems_eq_map (items : List Json) : ofItems items = items.map ofJson := by
  induction items with
  | nil => rfl
  | cons item items ih => rw [ofItems, ih, List.map_cons]

/-- The data of members, as a map: every name is a text. -/
theorem ofMembers_eq_map (members : List (String × Json)) :
    ofMembers members = members.map fun member ↦ (.text member.1, ofJson member.2) := by
  induction members with
  | nil => rfl
  | cons member members ih => rw [ofMembers, ih, List.map_cons]

/-- What comes out of data in which these offenders are met: an accepted result if there are none,
and otherwise a refusal for the first. -/
def Settles {ε α : Type} (outcome : Except ε α) (met : List ε) (accepted : α → Prop) : Prop :=
  match met with
  | [] => ∃ a, outcome = .ok a ∧ accepted a
  | first :: _ => outcome = .error first

namespace Settles

variable {ε α β : Type} {outcome : Except ε α} {met met' : List ε} {accepted : α → Prop}

theorem ok {a : α} (h : accepted a) : Settles (.ok a : Except ε α) [] accepted :=
  ⟨a, rfl, h⟩

/-- What is accepted may be said more weakly. -/
theorem imp {accepted' : α → Prop} (h : Settles outcome met accepted)
    (himp : ∀ a, accepted a → accepted' a) : Settles outcome met accepted' := by
  cases met with
  | nil =>
    obtain ⟨a, ha, haccepted⟩ := h
    exact ⟨a, ha, himp a haccepted⟩
  | cons => exact h

/-- Offenders are met one after another, and nothing is looked at behind the first. -/
theorem bind {f : α → Except ε β} {accepted' : β → Prop} (h : Settles outcome met accepted)
    (hf : ∀ a, accepted a → Settles (f a) met' accepted') :
    Settles (outcome >>= f) (met ++ met') accepted' := by
  cases met with
  | nil =>
    obtain ⟨a, rfl, ha⟩ := h
    exact hf a ha
  | cons first rest =>
    obtain rfl : outcome = .error first := h
    rfl

theorem map {f : α → Except ε β} {accepted' : β → Prop} (h : Settles outcome met accepted)
    (hf : ∀ a, accepted a → ∃ b, f a = .ok b ∧ accepted' b) :
    Settles (outcome >>= f) met accepted' := by
  rw [← List.append_nil met]
  exact h.bind hf

end Settles

/-- Data are the JSON value that they are taken for, unless a part offends. By induction over the
data, with the members of a list and the entries of a dictionary taken in their order. -/
theorem settles_toJson (data : Datum) :
    Settles data.toJson data.offenders fun value ↦ data = ofJson value := by
  induction data with
  | array items ih =>
    have hitems : Settles (itemsToJson items) (offendersOfItems items) fun values ↦
        items = ofItems values := by
      induction items with
      | nil => exact .ok rfl
      | cons item rest ihrest =>
        obtain ⟨hitem, hrest⟩ := List.forall_mem_cons.1 ih
        rw [itemsToJson, offendersOfItems]
        refine hitem.bind fun value hvalue ↦ (ihrest hrest).map fun values hvalues ↦ ⟨_, rfl, ?_⟩
        rw [hvalue, hvalues, ofItems]
    rw [toJson, offenders]
    exact hitems.map fun values hvalues ↦ ⟨_, rfl, congrArg _ hvalues⟩
  | object members ih =>
    -- a key is looked at before its value
    have hmembers : Settles (membersToJson members) (offendersOfMembers members) fun values ↦
        members = ofMembers values := by
      induction members with
      | nil => exact .ok rfl
      | cons member rest ihrest =>
        obtain ⟨hvalue, hrest⟩ := List.forall_mem_cons.1 ih
        obtain ⟨name, value⟩ := member
        cases name with
        | foreign kind => rfl
        | text name =>
          rw [membersToJson, offendersOfMembers]
          refine hvalue.bind fun v hv ↦ (ihrest hrest).map fun values hvalues ↦ ⟨_, rfl, ?_⟩
          rw [hvalues, ofMembers, ← hv]
    rw [toJson, offenders]
    exact hmembers.map fun values hvalues ↦ ⟨_, rfl, congrArg _ hvalues⟩
  | foreign kind => rfl
  | _ => exact .ok rfl

/-- A value taken for data is read as itself. -/
theorem toJson_ofJson (value : Json) : (ofJson value).toJson = .ok value := by
  induction value with
  | array items ih =>
    have hitems : itemsToJson (ofItems items) = .ok items := by
      induction items with
      | nil => rfl
      | cons item rest ihrest =>
        obtain ⟨hitem, hrest⟩ := List.forall_mem_cons.1 ih
        rw [ofItems, itemsToJson, hitem, ihrest hrest]
        rfl
    rw [ofJson, toJson, hitems]
    rfl
  | object members ih =>
    have hmembers : membersToJson (ofMembers members) = .ok members := by
      induction members with
      | nil => rfl
      | cons member rest ihrest =>
        obtain ⟨hvalue, hrest⟩ := List.forall_mem_cons.1 ih
        rw [ofMembers, membersToJson, hvalue, ihrest hrest]
        rfl
    rw [ofJson, toJson, hmembers]
    rfl
  | _ => rfl

/-! ### Names that are texts -/

/-- The name, if it is a text. -/
def Name.text? : Name → Option String
  | .text s => some s
  | .foreign _ => none

/-- The objects in the data have each text for a name once at most. -/
inductive Keyed : Datum → Prop
  | null : Keyed .null
  | bool (b : Bool) : Keyed (.bool b)
  | number (n : Number) : Keyed (.number n)
  | string (s : String) : Keyed (.string s)
  | array {items : List Datum} (items_keyed : ∀ item ∈ items, Keyed item) : Keyed (.array items)
  | object {members : List (Name × Datum)}
      (nodup : (members.filterMap fun member ↦ member.1.text?).Nodup)
      (values_keyed : ∀ member ∈ members, Keyed member.2) : Keyed (.object members)
  | foreign (kind : String) : Keyed (.foreign kind)

/-- Of JSON data this is what it is of values. -/
theorem keyed_of_ofJson {value : Json} (h : (ofJson value).Keyed) : value.Keyed := by
  induction value with
  | array items ih =>
    rw [ofJson, ofItems_eq_map] at h
    cases h with
    | array hitems =>
      exact .array fun item hitem ↦ ih item hitem (hitems _ (List.mem_map_of_mem hitem))
  | object members ih =>
    rw [ofJson, ofMembers_eq_map] at h
    cases h with
    | object hnodup hvalues =>
      refine .object ?_ fun member hmember ↦
        ih member hmember (hvalues _ (List.mem_map_of_mem hmember))
      rw [List.filterMap_map] at hnodup
      simpa [Function.comp_def, Name.text?, List.filterMap_eq_map] using hnodup
  | null => exact .null
  | bool b => exact .bool b
  | number n => exact .number n
  | string s => exact .string s

end JsonShapes.Datum
