import JsonShapes.Proofs.Catalog.Documents
import JsonShapes.Proofs.Catalog.Verifying
import JsonShapes.Proofs.Shape.ShufflingJoins

/-!
# Declarations do not depend on how unions are enumerated

Catalogs are shuffles of each other if they agree in numbers, keys and places, and what they declare
are shuffles (`Catalog.Shuffled`). Two computations agree (`Hoisting.Agree`) if in such catalogs
they have related outcomes and leave such catalogs again; a breach may name another of several
references that lead nowhere, but is otherwise the same. This passes through sequencing and through
lists, so hoisting shuffles of a well-formed shape makes the same declarations in the same order
(`Shape.agree_hoist`). A union is gone through by key, and its members have distinct keys.

So documents can be added with any enumeration of whatever unions are made on the way
(`Catalog.AddsEnumerated`), and get the same numbers in catalogs that are shuffles of each other
(`Catalog.AddsEnumerated.eq_ok`).

Which of several references that lead nowhere is named in a refusal does depend on the enumeration,
as references are checked in the order in which they are met. Refusals are therefore compared up to
that (`Breach.Alike`). Nothing of this comes up when documents are added, as then nothing is
refused.

## The course of the proof

* In shuffled catalogs the operations on single declarations agree, as they go by keys and numbers
  (`Catalog.Shuffled.declare`).
* Agreement passes through sequencing (`Agree.bind`) and along lists whose items are related
  (`Agree.mapM`).
* Hoisting goes through fields in the order of discovery, which shuffling keeps, and through members
  by key. Members of a well-formed union have distinct keys, so the order by key does not depend on
  how they are listed (`byKey_eq_of_perm`).

The relation between catalogs is on slots, one by one in their order: it would not be enough that
the same shapes are declared, as numbers are part of all that is written.
-/

namespace JsonShapes

/-- Declarations that agree in all but the enumeration of unions. -/
structure Declaration.Shuffled (d d' : Declaration) : Prop where
  id_eq : d.id = d'.id
  key_eq : d.key = d'.key
  places_eq : d.places = d'.places
  shape : d.shape.Shuffled d'.shape

/-- Breaches that are the same but for which of several references that lead nowhere is named. -/
inductive Breach.Alike : Breach → Breach → Prop
  | refl (breach : Breach) : Alike breach breach
  | forwardReference (key : String) (id id' : Int) :
      Alike (.forwardReference key id) (.forwardReference key id')

/-- Outcomes that are related results or breaches alike. -/
inductive Breach.Outcomes {α β : Type} (R : α → β → Prop) :
    Except Breach α → Except Breach β → Prop
  | ok {a : α} {b : β} (h : R a b) : Outcomes R (.ok a) (.ok b)
  | error {breach breach' : Breach} (h : breach.Alike breach') :
      Outcomes R (.error breach) (.error breach')

/-- What is related more closely is related. -/
theorem Breach.Outcomes.imp {α β : Type} {R S : α → β → Prop} (hRS : ∀ a b, R a b → S a b)
    {r : Except Breach α} {r' : Except Breach β} (h : Outcomes R r r') : Outcomes S r r' := by
  cases h with
  | ok h => exact .ok (hRS _ _ h)
  | error h => exact .error h

namespace Catalog

/-- Slots of the same number with declarations that agree in all but the enumeration of unions. -/
structure SlotShuffled (slot slot' : Int × Declaration) : Prop where
  number_eq : slot.1 = slot'.1
  declaration : slot.2.Shuffled slot'.2

section Slots

variable {slots slots' : List (Int × Declaration)}

/-- Under each number both lists of slots have shuffled declarations, or neither has any. -/
theorem rel_lookup_of_slots (h : List.Forall₂ SlotShuffled slots slots') (id : Int) :
    Option.Rel Declaration.Shuffled (slots.lookup id) (slots'.lookup id) := by
  induction h with
  | nil => exact .none
  | cons hslot _ ih =>
    rw [Entries.lookup_cons, Entries.lookup_cons, ← hslot.number_eq]
    split
    · exact .some hslot.declaration
    · exact ih

/-- Setting shuffled declarations under one number leaves shuffled slots. -/
theorem set_of_slots (h : List.Forall₂ SlotShuffled slots slots') {d d' : Declaration}
    (hd : d.Shuffled d') (id : Int) :
    List.Forall₂ SlotShuffled (Entries.set id d slots) (Entries.set id d' slots') := by
  induction h with
  | nil => exact .cons ⟨rfl, hd⟩ .nil
  | cons hslot hrest ih =>
    rw [Entries.set, Entries.set, ← hslot.number_eq]
    split
    · exact .cons ⟨rfl, hd⟩ hrest
    · exact .cons ⟨rfl, hslot.declaration⟩ ih

end Slots

/-- Catalogs that agree in all but the enumeration of unions. -/
structure Shuffled (c c' : Catalog) : Prop where
  /-- Slot by slot they have the same numbers, keys and places, and shuffles of the same shapes. -/
  slots : List.Forall₂ SlotShuffled c.slots c'.slots
  /-- Keys sort the members of unions, so the index is the same. -/
  index_eq : c.index = c'.index
  /-- They go on with the same number. -/
  nextId_eq : c.nextId = c'.nextId

/-- A number that was given, and the catalog in which it was. -/
structure Numbered (r r' : Int × Catalog) : Prop where
  id_eq : r.1 = r'.1
  catalog : r.2.Shuffled r'.2

namespace Shuffled

variable {c c' c'' : Catalog}

theorem refl (c : Catalog) : c.Shuffled c :=
  ⟨List.forall₂_same.2 fun _ _ ↦ ⟨rfl, rfl, rfl, rfl, .refl _⟩, rfl, rfl⟩

theorem trans (h : c.Shuffled c') (h' : c'.Shuffled c'') : c.Shuffled c'' := by
  refine ⟨forall₂_trans h.slots h'.slots fun _ _ _ hab hbc ↦ ?_,
    h.index_eq.trans h'.index_eq, h.nextId_eq.trans h'.nextId_eq⟩
  obtain ⟨hnumber, hab⟩ := hab
  obtain ⟨hnumber', hbc⟩ := hbc
  exact ⟨hnumber.trans hnumber', hab.id_eq.trans hbc.id_eq, hab.key_eq.trans hbc.key_eq,
    hab.places_eq.trans hbc.places_eq, hab.shape.trans hbc.shape⟩

theorem lookup_eq (h : c.Shuffled c') (key : String) : c.lookup key = c'.lookup key := by
  rw [lookup, lookup, h.index_eq]

theorem contains_eq (h : c.Shuffled c') (id : Int) : c.contains id = c'.contains id := by
  rw [contains, contains]
  generalize hd : c.slots.lookup id = d?, hd' : c'.slots.lookup id = d?'
  cases hd ▸ hd' ▸ rel_lookup_of_slots h.slots id <;> rfl

/-! ### Operations -/

/-- Adding a place does the same in both. -/
theorem addPlace (h : c.Shuffled c') (id : Int) (place : String) :
    Breach.Outcomes Shuffled (c.addPlace id place) (c'.addPlace id place) := by
  rw [Catalog.addPlace, Catalog.addPlace, get, get]
  generalize hlookup : c.slots.lookup id = d?, hlookup' : c'.slots.lookup id = d?'
  cases hlookup ▸ hlookup' ▸ rel_lookup_of_slots h.slots id with
  | none => exact .error (.refl _)
  | @some d d' hd =>
    show Breach.Outcomes Shuffled (ite _ _ _) (ite _ _ _)
    rw [← hd.places_eq]
    split
    · exact .ok h
    · have hplaced : Declaration.Shuffled { d with places := d.places ++ [place] }
          { d' with places := d.places ++ [place] } := ⟨hd.id_eq, hd.key_eq, rfl, hd.shape⟩
      exact .ok ⟨set_of_slots h.slots hplaced id, h.index_eq, h.nextId_eq⟩

variable {s s' : Shape}

/-- Shuffles of a shape refer to nothing unknown, or both do. -/
theorem find?_eq_none_iff (h : c.Shuffled c') (hss' : s.Shuffled s') :
    (s.references.find? fun r ↦ !c.contains r) = none ↔
      (s'.references.find? fun r ↦ !c'.contains r) = none := by
  simp only [List.find?_eq_none, ← h.contains_eq]
  exact ⟨fun hs r hr ↦ hs r (hss'.mem_references_iff.2 hr),
    fun hs r hr ↦ hs r (hss'.mem_references_iff.1 hr)⟩

/-- Inserting shuffles of a shape does the same in both: they have one key and the same references,
if not in the same order. -/
theorem insert (h : c.Shuffled c') (hss' : s.Shuffled s') (hs : s.foreigns = [])
    (place : String) : Breach.Outcomes Numbered (c.insert s place) (c'.insert s' place) := by
  have hkey : s.key? = .ok s.key := Shape.key?_eq_ok_iff.2 ⟨hs, rfl⟩
  have hkey' : s'.key? = .ok s.key :=
    Shape.key?_eq_ok_iff.2 ⟨hss'.foreigns_eq_nil hs, hss'.key_eq⟩
  rw [Catalog.insert, Catalog.insert, hkey, hkey']
  simp only [bind, Except.bind, ← h.lookup_eq]
  cases c.lookup s.key with
  | some id => exact .error (.refl _)
  | none =>
    have hfind := h.find?_eq_none_iff hss'
    generalize s.references.find? _ = r?, s'.references.find? _ = r?' at hfind
    cases r? with
    | some r =>
      cases r?' with
      | some r' => exact .error (.forwardReference _ r r')
      | none => cases hfind.2 rfl
    | none =>
      obtain rfl : r?' = none := hfind.1 rfl
      have hd : Declaration.Shuffled ⟨c.nextId, s, s.key, [place]⟩ ⟨c.nextId, s', s.key, [place]⟩ :=
        ⟨rfl, rfl, rfl, hss'⟩
      rw [← h.nextId_eq, ← h.index_eq]
      exact .ok ⟨rfl, set_of_slots h.slots hd _, rfl, rfl⟩

/-- Declaring shuffles of a shape finds both under one number, or neither. -/
theorem declare (h : c.Shuffled c') (hss' : s.Shuffled s') (hs : s.foreigns = [])
    (place : String) : Breach.Outcomes Numbered (c.declare s place) (c'.declare s' place) := by
  have hkey : s.key? = .ok s.key := Shape.key?_eq_ok_iff.2 ⟨hs, rfl⟩
  have hkey' : s'.key? = .ok s.key :=
    Shape.key?_eq_ok_iff.2 ⟨hss'.foreigns_eq_nil hs, hss'.key_eq⟩
  rw [Catalog.declare, Catalog.declare, hkey, hkey']
  simp only [bind, Except.bind, ← h.lookup_eq]
  cases c.lookup s.key with
  | none => exact h.insert hss' hs place
  | some id =>
    have hplace := h.addPlace id place
    dsimp only
    generalize c.addPlace id place = r, c'.addPlace id place = r' at hplace
    cases hplace with
    | ok h => exact .ok ⟨rfl, h⟩
    | error h => exact .error h

end Shuffled

end Catalog

namespace Hoisting

variable {α β γ δ : Type} {R : α → β → Prop} {S : γ → δ → Prop}

/-- In catalogs that are shuffles of each other the computations have related outcomes, and they
leave such catalogs. -/
def Agree (R : α → β → Prop) (m : Hoisting α) (m' : Hoisting β) : Prop :=
  ∀ ⦃c c' : Catalog⦄, c.Shuffled c' →
    Breach.Outcomes R (m c).1 (m' c').1 ∧ (m c).2.Shuffled (m' c').2

namespace Agree

theorem pure {a : α} {b : β} (h : R a b) : Agree R (pure a) (pure b) :=
  fun _ _ hc ↦ ⟨.ok h, hc⟩

theorem imp {S : α → β → Prop} (hRS : ∀ a b, R a b → S a b) {m : Hoisting α} {m' : Hoisting β}
    (h : Agree R m m') : Agree S m m' :=
  fun _ _ hc ↦ ⟨(h hc).1.imp hRS, (h hc).2⟩

/-- Computations agree if their first parts do, and the second parts do for related results. -/
theorem bind {m : Hoisting α} {m' : Hoisting β} {f : α → Hoisting γ} {f' : β → Hoisting δ}
    (hm : Agree R m m') (hf : ∀ a b, R a b → Agree S (f a) (f' b)) :
    Agree S (m >>= f) (m' >>= f') := by
  intro c c' hc
  obtain ⟨houtcome, hc₁⟩ := hm hc
  rcases hrun : m c with ⟨r, c₁⟩
  rcases hrun' : m' c' with ⟨r', c₁'⟩
  rw [hrun, hrun'] at houtcome hc₁
  cases houtcome with
  | ok hab =>
    rw [bind_of_ok hrun, bind_of_ok hrun']
    exact hf _ _ hab hc₁
  | error hbreach =>
    rw [bind_of_error hrun, bind_of_error hrun']
    exact ⟨.error hbreach, hc₁⟩

theorem lift {result : Except Breach α} {result' : Except Breach β}
    (h : Breach.Outcomes R result result') :
    Agree R (liftM result : Hoisting α) (liftM result' : Hoisting β) :=
  fun _ _ hc ↦ ⟨h, hc⟩

/-- Lists of related items agree if the items do. -/
theorem mapM {P : γ → δ → Prop} {f : γ → Hoisting α} {f' : δ → Hoisting β} {l : List γ}
    {l' : List δ} (h : List.Forall₂ P l l') (hf : ∀ a b, P a b → Agree R (f a) (f' b)) :
    Agree (List.Forall₂ R) (l.mapM f) (l'.mapM f') := by
  induction h with
  | nil => exact pure .nil
  | cons hab _ ih =>
    rw [List.mapM_cons, List.mapM_cons]
    exact (hf _ _ hab).bind fun _ _ hb ↦ ih.bind fun _ _ hbs ↦ pure (.cons hb hbs)

/-- Shuffles of a shape are declared under one number. -/
theorem declare {s s' : Shape} (h : s.Shuffled s') (hs : s.foreigns = []) (place : String) :
    Agree Eq (Hoisting.declare s place) (Hoisting.declare s' place) := by
  intro c c' hc
  rw [Hoisting.declare, Hoisting.declare]
  have hdeclare := hc.declare h hs place
  generalize c.declare s place = r, c'.declare s' place = r' at hdeclare
  cases hdeclare with
  | ok h => exact ⟨.ok h.id_eq, h.catalog⟩
  | error h => exact ⟨.error h, hc⟩

end Agree

end Hoisting

namespace Shape

variable {document : String}

/-! ### The order in which parts are hoisted -/

/-- Related fields stay related in the order of discovery. -/
theorem forall₂_inDiscoveryOrder {R : Shape → Shape → Prop} {fs gs : List (Field Shape)}
    (order : List String) (h : List.Forall₂ (Field.Related R) fs gs) :
    List.Forall₂ (Field.Related R) (Field.inDiscoveryOrder order fs)
      (Field.inDiscoveryOrder order gs) := by
  have hget : ∀ name, Option.Rel (Field.Related R) (Field.get? fs.reverse name)
      (Field.get? gs.reverse name) :=
    Field.rel_get?_of_forall₂ (fun _ _ ↦ Field.Related.name_eq) (List.rel_reverse h)
  refine List.rel_append (R := Field.Related R) ?_ ?_
  · refine List.rel_filterMap (R := Eq) (fun name _ hname ↦ ?_) (List.forall₂_same.2 fun _ _ ↦ rfl)
    exact hname ▸ hget name
  · refine List.rel_filter (fun f g hfg ↦ ?_) h
    simp only [hfg.name_eq]

/-- Whichever of equal members is kept, lists of shuffled members keep shuffled members. -/
theorem forall₂_distinct {ms ns : List Shape} (h : List.Forall₂ Shuffled ms ns) :
    List.Forall₂ Shuffled (distinct ms) (distinct ns) := by
  have hkept : ∀ {kept kept' : List Shape}, List.Forall₂ Shuffled kept kept' →
      List.Forall₂ Shuffled
        (ms.foldl (fun kept m ↦ if anySame kept m then kept else kept ++ [m]) kept)
        (ns.foldl (fun kept n ↦ if anySame kept n then kept else kept ++ [n]) kept') := by
    induction h with
    | nil => exact id
    | @cons m n _ _ hmn _ ih =>
      intro kept kept' hkept
      have hany : anySame kept m = anySame kept' n := by
        rw [Bool.eq_iff_iff, anySame_iff, anySame_iff]
        constructor
        · rintro ⟨k, hk, hkm⟩
          obtain ⟨k', hk', hkk'⟩ := exists_of_forall₂_left hkept hk
          exact ⟨k', hk', hkk'.same_eq hmn ▸ hkm⟩
        · rintro ⟨k', hk', hkn⟩
          obtain ⟨k, hk, hkk'⟩ := exists_of_forall₂_right hkept hk'
          exact ⟨k, hk, (hkk'.same_eq hmn).symm ▸ hkn⟩
      rw [List.foldl_cons, List.foldl_cons, hany]
      split
      · exact ih hkept
      · exact ih (List.rel_append hkept (.cons hmn .nil))
  exact hkept .nil

/-- Shapes with distinct keys come in one order by key. -/
theorem byKey_eq_of_perm {ms ns : List Shape}
    (hkeys : ∀ m ∈ ms, ∀ n ∈ ms, m.key = n.key → m = n) (hperm : ms.Perm ns) :
    byKey ms = byKey ns := by
  have hsorted : ∀ l : List Shape, (byKey l).Pairwise fun m n ↦ m.key ≤ n.key := by
    refine fun l ↦ (List.pairwise_mergeSort (fun a b c hab hbc ↦ ?_) (fun a b ↦ ?_) l).imp
      fun hle ↦ of_decide_eq_true hle
    · rw [decide_eq_true_eq] at hab hbc ⊢
      exact le_trans hab hbc
    · simpa using le_total a.key b.key
  refine List.Perm.eq_of_pairwise (fun m n hm hn hmn hnm ↦ ?_) (hsorted ms) (hsorted ns) ?_
  · refine hkeys m ((byKey_perm ms).mem_iff.1 hm) n ?_ (le_antisymm hmn hnm)
    exact hperm.mem_iff.2 ((byKey_perm ns).mem_iff.1 hn)
  · exact (byKey_perm ms).trans (hperm.trans (byKey_perm ns).symm)

/-- The members of a well-formed union have distinct keys, so those of a shuffle of it come in the
same order by key. -/
theorem forall₂_byKey {R : Shape → Shape → Prop} {ms ms' ns : List Shape}
    (hms : (union ms).WellFormed) (hR : ∀ m n, R m n → m.Shuffled n) (h : List.Forall₂ R ms ms')
    (hperm : ms'.Perm ns) : List.Forall₂ R (byKey ms) (byKey ns) := by
  have hms' : (union ms').WellFormed := hms.shuffled (.union (h.imp hR) (.refl _))
  rw [← byKey_eq_of_perm ?_ hperm]
  · refine forall₂_mergeSort h fun m m' n n' hm hn ↦ ?_
    rw [(hR m m' hm).key_eq, (hR n n' hn).key_eq]
  · cases hms' with
    | union _ hassorted hmembers =>
      intro m hm n hn hkey
      exact hassorted.eq_of_same hm hn (same_of_key_eq (hmembers m hm).sorted (hmembers n hn).sorted
        (hmembers m hm).foreigns_eq_nil (hmembers n hn).foreigns_eq_nil hkey)

/-! ### Hoisting -/

/-- A shuffle of a shape without foreign parts. -/
structure Hoisted (t t' : Shape) : Prop where
  shuffled : t.Shuffled t'
  encodable : t.foreigns = []

theorem agree_declareRef {s s' : Shape} (h : s.Shuffled s') (hs : s.foreigns = [])
    (place : String) : Hoisting.Agree Hoisted
      (do return .ref (← Hoisting.declare s place))
      (do return .ref (← Hoisting.declare s' place)) :=
  (Hoisting.Agree.declare h hs place).bind fun _ _ hid ↦ hid ▸ .pure ⟨.ref _, rfl⟩

/-- Hoisting shuffles of a well-formed shape makes the same declarations. By induction over the
shuffle: declarations are found by key, which shuffles share, and the members of a union are hoisted
in the order of their keys. -/
theorem agree_hoist (document : String) {s s' : Shape} (h : s.Shuffled s') (hs : s.WellFormed)
    (pointer : String) :
    Hoisting.Agree Hoisted (s.hoist document pointer) (s'.hoist document pointer) := by
  induction h generalizing pointer with
  | prim p => exact .pure ⟨.prim p, rfl⟩
  | emptyArray => exact agree_declareRef .emptyArray rfl _
  | array _ ih =>
    cases hs with
    | array hs =>
      rw [hoist, hoist]
      refine (ih hs _).bind fun t t' htt' ↦ ?_
      obtain ⟨htt', hforeign⟩ := htt'
      cases htt' with
      | ref id => exact agree_declareRef (.array (.ref id)) rfl _
      | prim p => exact .pure ⟨.array (.prim p), rfl⟩
      | emptyArray => exact .pure ⟨.array .emptyArray, rfl⟩
      | array h => exact .pure ⟨.array (.array h), hforeign⟩
      | object order h => exact .pure ⟨.array (.object order h), hforeign⟩
      | union h hperm => exact .pure ⟨.array (.union h hperm), hforeign⟩
      | foreign thing => cases hforeign
  | object order _ ih =>
    cases hs with
    | object _ _ hcontents =>
      rw [hoist_object, hoist_object]
      have hfields := forall₂_inDiscoveryOrder order (R := fun t t' ↦ ∀ pointer,
        Hoisting.Agree Hoisted (t.hoist document pointer) (t'.hoist document pointer))
        (forall₂_imp_of_mem ih fun f hf _ _ hfg ↦
          .of_eq hfg.name_eq hfg.optional_eq (hfg.related.2 (hcontents f hf)))
      refine (Hoisting.Agree.mapM (R := Field.Related Hoisted) hfields fun f g hfg ↦ ?_).bind
        fun gs gs' hgs ↦ ?_
      · cases hfg with
        | mk name optional h => exact (h _).bind fun t t' ht ↦ .pure ⟨name, optional, ht⟩
      · refine agree_declareRef (.ofFields order (hgs.imp fun _ _ hg ↦
          .of_eq hg.name_eq hg.optional_eq hg.related.shuffled)) ?_ _
        refine foreignsOfFields_eq_nil_iff.2 fun g hg ↦ ?_
        obtain ⟨_, -, hgg'⟩ := exists_of_forall₂_left hgs (List.mem_mergeSort.1 hg)
        exact hgg'.related.encodable
  | @union ms ms' ns h hperm ih =>
    have hns : (union ns).WellFormed := hs.shuffled (.union h hperm)
    have hencodable : ∀ {ks : List Shape}, (union ks).WellFormed →
        ks.forM requireEncoding = .ok () := fun hks ↦
      forM_requireEncoding_eq_ok (foreignsOfAll_eq_nil_iff.1 hks.foreigns_eq_nil)
    rw [hoist_union, hoist_union, hencodable hs, hencodable hns]
    refine (Hoisting.Agree.lift (R := Eq) (.ok rfl)).bind fun _ _ _ ↦ ?_
    have hmembers : List.Forall₂ (fun m n ↦ m.Shuffled n ∧ ∀ pointer,
        Hoisting.Agree Hoisted (m.hoist document pointer) (n.hoist document pointer)) ms ms' := by
      cases hs with
      | union _ _ hms =>
        exact forall₂_imp_of_mem ih fun m hm _ _ hmn ↦ ⟨hmn.1, hmn.2 (hms m hm)⟩
    -- by key the members come in one order, however the unions list them
    refine (Hoisting.Agree.mapM (forall₂_byKey hs (fun _ _ ↦ And.left) hmembers hperm)
      fun m n hmn ↦ hmn.2 pointer).bind fun ts ts' hts ↦ ?_
    refine .pure ⟨.union (forall₂_distinct (hts.imp fun _ _ ↦ Hoisted.shuffled)) (.refl _), ?_⟩
    refine foreignsOfAll_eq_nil_iff.2 fun t ht ↦ ?_
    obtain ⟨_, -, htt'⟩ := exists_of_forall₂_left hts (mem_of_mem_distinct ht)
    exact htt'.encodable
  | ref id => exact .pure ⟨.ref id, rfl⟩
  | foreign thing => cases hs

end Shape

/-! ### Documents -/

namespace Hoisting

/-- Adds a document whose value has the given shape. -/
def addShape (document : String) (s : Shape) : Hoisting Int := do
  declareRoot (← s.hoist document "") document

theorem addDocument_eq_addShape (policy : Policy) (document : String) (value : Json) :
    addDocument policy document value = addShape document (Shape.ofJson policy value) :=
  rfl

/-- Adding shuffles of a well-formed shape gives the same number. -/
theorem agree_addShape (document : String) {s s' : Shape} (h : s.Shuffled s')
    (hs : s.WellFormed) : Agree Eq (addShape document s) (addShape document s') := by
  refine (Shape.agree_hoist document h hs "").bind fun t t' ht ↦ ?_
  obtain ⟨htt', hforeign⟩ := ht
  have hdeclare := Agree.declare htt' hforeign document
  cases htt' with
  | ref id => exact .pure rfl
  | _ => exact hdeclare

end Hoisting

namespace Catalog

/-- What adding documents to a catalog may come to, if the unions of each shape that is inferred and
of the catalog are enumerated anew before each document and after the last. -/
inductive AddsEnumerated (policy : Policy) :
    Catalog → List (String × Json) → Except Breach (List Int) → Catalog → Prop
  /-- In the end unions may be enumerated anew once more. -/
  | nil {c c' : Catalog} (h : c.Shuffled c') : AddsEnumerated policy c [] (.ok []) c'
  /-- A document is added with any enumeration of what is inferred from it and of what is in the
  catalog. -/
  | cons {c c₀ c₁ c' : Catalog} {document : String} {value : Json} {s : Shape} {root : Int}
      {documents : List (String × Json)} {outcome : Except Breach (List Int)}
      (hs : Shape.Infers policy value s) (h : c.Shuffled c₀)
      (hadd : Hoisting.addShape document s c₀ = (.ok root, c₁))
      (hrest : AddsEnumerated policy c₁ documents outcome c') :
      AddsEnumerated policy c ((document, value) :: documents) (outcome.map (root :: ·)) c'
  /-- The first breach ends it. -/
  | stop {c c₀ c₁ c' : Catalog} {document : String} {value : Json} {s : Shape} {breach : Breach}
      {documents : List (String × Json)} (hs : Shape.Infers policy value s) (h : c.Shuffled c₀)
      (hadd : Hoisting.addShape document s c₀ = (.error breach, c₁)) (h' : c₁.Shuffled c') :
      AddsEnumerated policy c ((document, value) :: documents) (.error breach) c'

/-- Whatever the enumerations, documents that can be added get the numbers that they get, in a
shuffle of the catalog that they make. -/
theorem AddsEnumerated.eq_ok {policy : Policy} {documents : List (String × Json)}
    (hkeyed : ∀ document ∈ documents, document.2.Keyed) {c c' c₁ c₂ : Catalog} {roots : List Int}
    {outcome : Except Breach (List Int)} (hc : c.Shuffled c')
    (h : AddsEnumerated policy c' documents outcome c₂)
    (hrun : Hoisting.addDocuments policy documents c = (.ok roots, c₁)) :
    outcome = .ok roots ∧ c₁.Shuffled c₂ := by
  -- the first document fares alike in both catalogs
  have hfirst : ∀ {c c₀ c₃ : Catalog} {document : String} {value : Json} {s : Shape}
      {result : Except Breach Int}, value.Keyed → Shape.Infers policy value s → c.Shuffled c₀ →
      Hoisting.addShape document s c₀ = (result, c₃) →
      Breach.Outcomes Eq (Hoisting.addDocument policy document value c).1 result ∧
        (Hoisting.addDocument policy document value c).2.Shuffled c₃ := by
    intro c c₀ c₃ document value s result hvalue hs hc hadd
    have hagree := Hoisting.agree_addShape document (hs.shuffled hvalue)
      (Shape.wellFormed_ofJson hvalue) hc
    rwa [← Hoisting.addDocument_eq_addShape, hadd] at hagree
  induction h generalizing c roots with
  | nil h =>
    cases hrun
    exact ⟨rfl, hc.trans h⟩
  | @cons c' c₀ c₃ c₂ document value s root documents outcome hs h hadd _ ih =>
    rw [List.forall_mem_cons] at hkeyed
    obtain ⟨houtcome, hc₃⟩ := hfirst hkeyed.1 hs (hc.trans h) hadd
    rw [Hoisting.addDocuments, List.mapM_cons] at hrun
    rcases hone : Hoisting.addDocument policy document value c with ⟨result, c₄⟩
    rw [hone] at houtcome hc₃
    cases houtcome with
    | ok hroot =>
    rw [Hoisting.bind_of_ok hone] at hrun
    rcases hmore : Hoisting.addDocuments policy documents c₄ with ⟨result, c₅⟩
    cases result with
    | error breach => exact nomatch (Hoisting.bind_of_error hmore _).symm.trans hrun
    | ok rest =>
      cases (Hoisting.bind_of_ok hmore _).symm.trans hrun
      obtain ⟨rfl, hc₂⟩ := ih hkeyed.2 hc₃ hmore
      exact ⟨hroot ▸ rfl, hc₂⟩
  | @stop c' c₀ c₃ c₂ document value s breach documents hs h hadd _ =>
    rw [List.forall_mem_cons] at hkeyed
    obtain ⟨houtcome, -⟩ := hfirst hkeyed.1 hs (hc.trans h) hadd
    rw [Hoisting.addDocuments, List.mapM_cons] at hrun
    rcases hone : Hoisting.addDocument policy document value c with ⟨result, c₄⟩
    rw [hone] at houtcome
    cases houtcome with
    | error => exact nomatch (Hoisting.bind_of_error hone _).symm.trans hrun

end Catalog

end JsonShapes
