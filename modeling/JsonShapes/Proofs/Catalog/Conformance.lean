import JsonShapes.Catalog.Basic
import JsonShapes.Proofs.Shape.Inference
import JsonShapes.Proofs.Shape.Meaning

/-!
# Values that conform to a shape

A shape accepts values, its references standing for the shapes declared in a catalog
(`Catalog.Conforms`). What a shape accepts hangs on its meaning only (`Conforms.of_same`), and a
well-formed shape that shows all that the shape of a value does accepts that value
(`conforms_of_covers`). As the shape of an array shows below its items what each of them does, this
carries through any nesting, whatever the policy made of conflicts.

A shape covers a value if it shows whatever the shape of that value shows (`Catalog.Covers`). What
is shown of a value that is no choice includes its kind, so a shape without alternatives that covers
it is of that kind (`Covers.head_eq`), and a union has an alternative that covers it
(`Covers.exists_alternative`). From there the proof is an induction on the value: what is covered is
covered part by part.

Values of a document are covered by its shape trivially, and items of an array by the element. So
that a value conforms is not followed through the joins by which its shape came about, and the
conflicts in them, which the policy may have given up, are no cases of their own.
-/

namespace JsonShapes

open Shape Sighting

/-- The value is one that the shape accepts, with references standing for what is declared. -/
inductive Catalog.Conforms (c : Catalog) : Shape → Json → Prop
  | unknown (value : Json) : Conforms c (.prim .unknown) value
  | null : Conforms c (.prim .null) .null
  | boolean (b : Bool) : Conforms c (.prim .boolean) (.bool b)
  | number (n : Number) : Conforms c (.prim .number) (.number n)
  | string (s : String) : Conforms c (.prim .string) (.string s)
  | emptyArray (items : List Json) : Conforms c .emptyArray (.array items)
  | array {e : Shape} {items : List Json} (items_conform : ∀ item ∈ items, Conforms c e item) :
      Conforms c (.array e) (.array items)
  | object {fs : List (Field Shape)} {members : List (String × Json)} (order : List String)
      (declared : ∀ member ∈ members, member.1 ∈ fs.map (·.name))
      (values_conform : ∀ member ∈ members, ∀ f ∈ fs, f.name = member.1 →
        Conforms c f.content member.2)
      (required : ∀ f ∈ fs, f.optional = false → f.name ∈ members.map (·.1)) :
      Conforms c (.object fs order) (.object members)
  | union {ms : List Shape} {m : Shape} {value : Json} (hm : m ∈ ms) (h : Conforms c m value) :
      Conforms c (.union ms) value
  | ref {id : Int} {d : Declaration} {value : Json} (hd : c.slots.lookup id = some d)
      (h : Conforms c d.shape value) : Conforms c (.ref id) value

namespace Catalog

variable {c : Catalog} {policy : Policy}

/-- What an alternative accepts the whole accepts. -/
theorem Conforms.of_mem_alternatives {t m : Shape} {value : Json} (hm : m ∈ t.alternatives)
    (h : c.Conforms m value) : c.Conforms t value := by
  cases t with
  | union ms => exact .union hm h
  | _ => exact List.mem_singleton.1 hm ▸ h

/-- Shapes that mean the same accept the same values. By induction over what is accepted: sameness
pairs the parts that a value is held against. -/
theorem Conforms.of_same {s t : Shape} {value : Json} (h : c.Conforms s value)
    (hst : s.same t = true) : c.Conforms t value := by
  -- the equality follows the shape that accepts, case by case
  induction h generalizing t with
  | unknown | null | boolean | number | string | emptyArray =>
    cases same_cases hst
    constructor
  | array _ ih =>
    cases same_cases hst with
    | array hef => exact .array fun item hitem ↦ ih item hitem hef
  | object _ hdeclared _ hrequired ih =>
    cases same_cases hst with
    | @object _ gs _ order' halike =>
      refine .object order' (fun member hmember ↦ ?_) (fun member hmember g hg hname ↦ ?_)
        fun g hg hoptional ↦ ?_
      · obtain ⟨f, hf, hname⟩ := List.mem_map.1 (hdeclared member hmember)
        obtain ⟨g, hg, hfg⟩ := exists_of_forall₂_left halike hf
        exact List.mem_map.2 ⟨g, hg, hfg.name.symm.trans hname⟩
      · obtain ⟨f, hf, hfg⟩ := exists_of_forall₂_right halike hg
        exact ih member hmember f hf (hfg.name.trans hname) hfg.content
      · obtain ⟨f, hf, hfg⟩ := exists_of_forall₂_right halike hg
        rw [← hfg.name]
        exact hrequired f hf (hfg.optional.trans hoptional)
  | union hm _ ih =>
    cases same_cases hst with
    | union hl _ =>
      obtain ⟨n, hn, hmn⟩ := hl _ hm
      exact .union hn (ih hmn)
  | ref hd h _ =>
    cases same_cases hst
    exact .ref hd h

/-! ### Shapes that show what a value does -/

/-- The shape shows all that the shape of the value does. -/
def Covers (policy : Policy) (t : Shape) (value : Json) : Prop :=
  sightings policy (ofJson policy value) ⊆ sightings policy t

theorem covers_ofJson (policy : Policy) (value : Json) :
    Covers policy (ofJson policy value) value :=
  Set.Subset.rfl

theorem head_ofJson_array (policy : Policy) (items : List Json) :
    (ofJson policy (.array items)).head = .array := by
  rw [ofJson]
  split <;> rfl

/-- The shape has the kind of the value, if it is not one of several alternatives. -/
theorem Covers.head_eq {t : Shape} {value : Json} (h : Covers policy t value) (hv : value.Keyed)
    (ht : t.isPlain = true) : (ofJson policy value).head = t.head := by
  have hshown : ([], (ofJson policy value).head) ∈ sightings policy t :=
    h (shows_head (wellFormed_ofJson hv) (Or.inr (isPlain_ofJson value)))
  exact (head_head _).symm.trans (head_eq_of_shows ht hshown)

/-- One alternative shows all that the shape of a value does, as that has one alternative. -/
theorem Covers.exists_alternative {t : Shape} {value : Json} (h : Covers policy t value)
    (hv : value.Keyed) (ht : t.WellFormed) (hne : t ≠ unknown) :
    ∃ m ∈ t.alternatives, Covers policy m value := by
  have hplain : (ofJson policy value).isPlain = true := isPlain_ofJson value
  have hshown : ([], (ofJson policy value).head) ∈ sightings policy t :=
    h (shows_head (wellFormed_ofJson hv) (Or.inr hplain))
  cases policy with
  | union =>
    rw [sightings_alternatives t] at hshown
    obtain ⟨m, hm, hshown⟩ := hshown
    have hhead := (head_head _).symm.trans (head_eq_of_shows ((ht.assorted hne).plain m hm) hshown)
    refine ⟨m, hm, fun x hx ↦ (mem_sightings_alternative ht hne hm).2 ⟨h hx, ?_⟩⟩
    rw [← hhead]
    exact head_eq_of_shows hplain hx
  | unknown =>
    -- a union shows no more than that there is a choice, which is not the head of any value
    cases t with
    | union ms =>
      have hroot : (ofJson Policy.unknown value).head ∈ root (sightings .unknown (.union ms)) :=
        hshown
      rw [root_sightings_choice] at hroot
      obtain ⟨s, hs, -⟩ := hroot
      exact absurd hs (head_ne_choice (wellFormed_ofJson hv) hplain s)
    | _ => exact ⟨_, List.mem_singleton_self _, h⟩

/-- It is enough to look at shapes without alternatives: what covers the value is the unknown, which
accepts everything, or has an alternative that does. -/
theorem conforms_of_forall_alternatives {t : Shape} {value : Json} (h : Covers policy t value)
    (hv : value.Keyed) (ht : t.WellFormed)
    (hm : ∀ m, m.WellFormed → m.isPlain = true → Covers policy m value → c.Conforms m value) :
    c.Conforms t value := by
  rcases eq_or_ne t unknown with rfl | hne
  · exact .unknown value
  · obtain ⟨m, hmem, hcovers⟩ := h.exists_alternative hv ht hne
    exact .of_mem_alternatives hmem
      (hm m (ht.mem_alternatives hmem) ((ht.assorted hne).plain m hmem) hcovers)

/-- What covers an array covers its items with its element, as the shape of the array shows below an
item what the shape of that item shows. -/
theorem Covers.item {e : Shape} {items : List Json} (h : Covers policy (.array e) (.array items))
    (hitems : ∀ item ∈ items, item.Keyed) {item : Json} (hitem : item ∈ items) :
    Covers policy e item := by
  have hbelow : below (sightings policy (ofJson policy (.array items))) .item ⊆
      below (sightings policy (.array e)) .item := fun x hx ↦ h hx
  rw [below_sightings_ofJson_array_item hitems, below_sightings_array_item] at hbelow
  intro x hx
  exact hbelow (policy.closure.le_closure _ ⟨_, List.mem_map_of_mem hitem, hx⟩)

section Object

variable {fs : List (Field Shape)} {order : List String} {members : List (String × Json)}
  (h : Covers policy (.object fs order) (.object members)) (hnodup : (members.map (·.1)).Nodup)

include h hnodup

/-- What covers an object has a field for each of its members, which covers the value of the member:
every shape shows something, so a name that shows nothing has no field. -/
theorem Covers.exists_get? {member : String × Json} (hmember : member ∈ members)
    (hkeyed : member.2.Keyed) :
    ∃ f, Field.get? fs member.1 = some f ∧ Covers policy f.content member.2 := by
  have hbelow : below (sightings policy (ofJson policy (.object members))) (.member member.1) ⊆
      below (sightings policy (.object fs order)) (.member member.1) := fun x hx ↦ h hx
  rw [below_sightings_ofJson_object_member hnodup, (Entries.lookup_eq_some_iff hnodup).2 hmember,
    below_sightings_object_member] at hbelow
  cases hf : Field.get? fs member.1 with
  | none =>
    obtain ⟨x, hx⟩ : (sightings policy (ofJson policy member.2)).Nonempty :=
      sightings_nonempty (wellFormed_ofJson hkeyed)
    rw [hf] at hbelow
    exact absurd (hbelow hx) (Set.notMem_empty x)
  | some f =>
    rw [hf] at hbelow
    exact ⟨f, rfl, hbelow⟩

/-- An object without some name shows that it lacks it, and a required field shows no such thing. -/
theorem Covers.mem_of_required (hfs : (fs.map (·.name)).Nodup) {f : Field Shape} (hf : f ∈ fs)
    (hoptional : f.optional = false) : f.name ∈ members.map (·.1) := by
  by_contra hnot
  have hlacks : .lacks f.name ∈ root (sightings policy (ofJson policy (.object members))) := by
    rw [root_sightings_ofJson_object hnodup]
    exact Or.inr ⟨_, rfl, Entries.lookup_eq_none_iff.2 hnot⟩
  have hshown : .lacks f.name ∈ root (sightings policy (.object fs order)) := h hlacks
  rw [root_sightings_object] at hshown
  rcases hshown with hshown | ⟨name, hname, hshown⟩
  · exact nomatch hshown
  · cases hname
    rw [Field.get?_of_mem hfs hf, Option.all_some, hoptional] at hshown
    exact Bool.false_ne_true hshown

end Object

/-- For a shape without alternatives, by the parts of the value. By induction over the value: the
shape has the head of the value, and each of its parts covers the part of the value it is held
against. -/
theorem conforms_of_covers_of_isPlain (c : Catalog) {t : Shape} {value : Json}
    (h : Covers policy t value) (hv : value.Keyed) (ht : t.WellFormed) (hplain : t.isPlain = true) :
    c.Conforms t value := by
  -- the shape is of the kind of the value, and its parts show what those of the value do
  induction hv generalizing t with
  | @array items hitems ih =>
    have hhead : .array = t.head :=
      (head_ofJson_array policy items).symm.trans (h.head_eq (.array hitems) hplain)
    cases ht with
    | emptyArray => exact .emptyArray items
    | array he =>
      refine .array fun item hitem ↦ ?_
      exact conforms_of_forall_alternatives (h.item hitems hitem) (hitems item hitem) he
        fun m hm hplain hcovers ↦ ih item hitem hcovers hm hplain
    | _ => exact nomatch hhead
  | @object members hnodup hmembers ih =>
    have hhead : .object = t.head := h.head_eq (.object hnodup hmembers) hplain
    cases ht with
    | @object fs order hincreasing _ hcontents =>
      have hnames := hincreasing.nodup
      have hfield := fun member hmember ↦ h.exists_get? hnodup hmember (hmembers member hmember)
      refine .object order (fun member hmember ↦ ?_) (fun member hmember f hf hname ↦ ?_)
        fun f hf hoptional ↦ h.mem_of_required hnodup hnames hf hoptional
      · obtain ⟨f, hget, -⟩ := hfield member hmember
        exact List.mem_map.2 ⟨f, Field.mem_of_get? hget, Field.name_of_get? hget⟩
      · obtain ⟨g, hget, hcovers⟩ := hfield member hmember
        obtain rfl : f = g := Option.some.inj
          (((Field.get?_eq_some_iff hnames).2 ⟨hf, hname⟩).symm.trans hget)
        exact conforms_of_forall_alternatives hcovers (hmembers member hmember) (hcontents f hf)
          fun m hm hplain hcovers ↦ ih member hmember hcovers hm hplain
    | _ => exact nomatch hhead
  | null | bool | number | string =>
    have hhead := h.head_eq (by constructor) hplain
    cases ht with
    | prim p =>
      cases hhead
      constructor
    | _ => exact nomatch hhead

/-- A well-formed shape that shows all that the shape of a value does accepts the value. -/
theorem conforms_of_covers (c : Catalog) {t : Shape} {value : Json} (h : Covers policy t value)
    (hv : value.Keyed) (ht : t.WellFormed) : c.Conforms t value :=
  conforms_of_forall_alternatives h hv ht fun _ hm hplain hcovers ↦
    conforms_of_covers_of_isPlain c hcovers hv hm hplain

end Catalog

end JsonShapes
