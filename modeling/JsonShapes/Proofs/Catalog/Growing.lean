import JsonShapes.Json.Datum
import JsonShapes.Proofs.Catalog.Calls
import JsonShapes.Proofs.Catalog.Inspecting
import Mathlib

/-!
# Catalogs only grow

Stubs are written while documents are still being added, so a catalog must never take back what it
has told. Of two catalogs the later has every declaration of the earlier in its slot, with more
places at most, and every entry of its index (`Catalog.Grows`); changes make a catalog grow, so all
calls do.

The operations on single declarations are also written down as the assignments that they consist of,
one after another in the monad of hoisting (`Hoisting.insert`, `Hoisting.addPlace`,
`Hoisting.declareStepwise`). Every check comes before the first assignment, so a refusal leaves
nothing half done; `Catalog.Refuses` lists the reasons for one.

That a failed operation leaves no trace is a matter of the order of checks and assignments, and
would be lost if one were moved. It is therefore shown of the stepwise form, in which a state
between two assignments can be seen, and the form in which operations are given is shown to be the
same (`insert_eq_atomically`, `addPlace_eq_atomically`, `declareStepwise_eq_atomically`).

## What each part rests on

* That catalogs grow (`Change.grows`, `Reaches.grows`) rests on the single changes alone: a new slot
  at the end, a new place in a slot. No call is looked at again.
* That a refusal changes nothing rests on the stepwise form. It does not follow from the type of the
  operations: `insert` is a sequence of assignments to a state that is there all the time, and what
  a failing one leaves is this state.
* The reasons for a refusal (`Refuses`) rest on the checks of each operation in their order. For
  `declare` the catalog has to be sound as well: then a key that it knows leads to a declaration, so
  that a place can be added there (`Sound.declare_eq_error_iff`).

`append_only` puts the three together for any sequence of calls.
-/

namespace JsonShapes

/-! ### Growth -/

/-- A declaration is still the same, and has the places that it had before any new ones. -/
structure Declaration.Kept (d d' : Declaration) : Prop where
  id_eq : d'.id = d.id
  shape_eq : d'.shape = d.shape
  key_eq : d'.key = d.key
  places_initial : d.places <+: d'.places

namespace Declaration.Kept

variable {d d' d'' : Declaration}

theorem refl : d.Kept d :=
  ⟨rfl, rfl, rfl, List.prefix_refl _⟩

theorem trans (h : d.Kept d') (h' : d'.Kept d'') : d.Kept d'' :=
  ⟨h'.id_eq.trans h.id_eq, h'.shape_eq.trans h.shape_eq, h'.key_eq.trans h.key_eq,
    h.places_initial.trans h'.places_initial⟩

end Declaration.Kept

namespace Catalog

/-- The later catalog begins with the declarations of the earlier one, slot by slot, and so does its
index; no number is given out again. -/
structure Grows (c c' : Catalog) : Prop where
  /-- Each slot keeps its number, and its declaration but for further places. -/
  slots : ∀ (i : Nat) (id : Int) (d : Declaration), c.slots[i]? = some (id, d) →
    ∃ d' : Declaration, c'.slots[i]? = some (id, d') ∧ d.Kept d'
  /-- The index keeps its entries, and further ones come behind them. -/
  index_initial : c.index <+: c'.index
  /-- No number is given out twice. -/
  nextId_le : c.nextId ≤ c'.nextId

namespace Grows

variable {c c' c'' : Catalog}

theorem refl : c.Grows c :=
  ⟨fun _ _ d h ↦ ⟨d, h, .refl⟩, List.prefix_refl _, le_refl _⟩

theorem trans (h : c.Grows c') (h' : c'.Grows c'') : c.Grows c'' where
  slots i id d hd := by
    obtain ⟨d', hd', hkept⟩ := h.slots i id d hd
    obtain ⟨d'', hd'', hkept'⟩ := h'.slots i id d' hd'
    exact ⟨d'', hd'', hkept.trans hkept'⟩
  index_initial := h.index_initial.trans h'.index_initial
  nextId_le := h.nextId_le.trans h'.nextId_le

end Grows

variable {allowed : Shape → Prop} {c c' : Catalog}

/-- A new declaration comes last, and so does its key. -/
theorem Sound.grows_extend (hc : Sound allowed c) {shape : Shape} (place : String)
    (hnew : c.lookup shape.key = none) : c.Grows (c.extend shape place) where
  slots i id d hd := by
    refine ⟨d, ?_, .refl⟩
    rw [hc.slots_extend]
    exact List.getElem?_append_left (List.getElem?_eq_some_iff.1 hd).1 ▸ hd
  index_initial := by
    show c.index <+: Entries.set shape.key c.nextId c.index
    rw [Entries.set_of_not_mem _ (Entries.lookup_eq_none_iff.1 hnew)]
    exact List.prefix_append _ _
  nextId_le := by
    show c.nextId ≤ c.nextId + 1
    omega

/-- A place is added after the others, in the slot of its declaration. -/
theorem grows_setPlaces {id : Int} {d : Declaration} (place : String)
    (hd : c.slots.lookup id = some d) : c.Grows
      { c with slots := Entries.set id { d with places := d.places ++ [place] } c.slots } where
  slots i other e he := by
    rcases Entries.getElem?_set_of_lookup { d with places := d.places ++ [place] } hd he with
      h | ⟨heq, h⟩
    · exact ⟨e, h, .refl⟩
    · obtain ⟨rfl, rfl⟩ := Prod.mk.inj heq
      exact ⟨_, h, rfl, rfl, rfl, List.prefix_append _ _⟩
  index_initial := List.prefix_refl _
  nextId_le := le_refl _

/-- Either change makes a catalog grow. -/
theorem Change.grows (hchange : Change allowed c c') (hc : Sound allowed c) : c.Grows c' := by
  cases hchange with
  | insert hshape hinsert =>
    obtain ⟨-, hnew, -, -, rfl⟩ := insert_eq_ok_iff.1 hinsert
    exact hc.grows_extend _ hnew
  | @addPlace id place hplace =>
    obtain ⟨d, hd, rfl⟩ := addPlace_eq_ok_iff.1 hplace
    split
    · exact .refl
    · exact grows_setPlaces place hd

/-- Whatever changes are made to a sound catalog, it grows. -/
theorem Reaches.grows (hreaches : Reaches allowed c c') (hc : Sound allowed c) : c.Grows c' := by
  induction hreaches with
  | refl => exact .refl
  | tail hfirst hchange ih => exact ih.trans (hchange.grows (Reaches.sound hfirst hc))

end Catalog

/-! ### Operations, assignment by assignment -/

namespace Hoisting

variable {α : Type}

/-- Runs an operation that either succeeds or leaves the catalog as it was. -/
def atomically (operation : Catalog → Except Breach (α × Catalog)) : Hoisting α := fun catalog ↦
  match operation catalog with
  | .ok (a, changed) => (.ok a, changed)
  | .error breach => (.error breach, catalog)

/-- Refuses a key that is declared. -/
def requireNew (key : String) : Hoisting Unit := do
  if let some id := (← get).lookup key then throw (.alreadyDeclared key id)

/-- Refuses a reference that leads nowhere, in the name of the shape that has it. -/
def requireKnown (key : String) (reference : Int) : Hoisting Unit := do
  unless (← get).contains reference do throw (.forwardReference key reference)

/-- Declares a shape under the next number: the number is taken, then the slot is filled, and last
the key is entered into the index. -/
def insert (shape : Shape) (place : String) : Hoisting Int := do
  let key ← liftM shape.key?
  requireNew key
  shape.references.forM (requireKnown key)
  let id := (← get).nextId
  modify fun c ↦ { c with nextId := c.nextId + 1 }
  modify fun c ↦ { c with slots := Entries.set id ⟨id, shape, key, [place]⟩ c.slots }
  modify fun c ↦ { c with index := Entries.set key id c.index }
  return id

/-- Adds a place to a declaration in its slot, unless the declaration has it. -/
def addPlace (id : Int) (place : String) : Hoisting Unit := do
  let d ← liftM ((← get).get id)
  unless place ∈ d.places do
    modify fun c ↦
      { c with slots := Entries.set id { d with places := d.places ++ [place] } c.slots }

/-- Declares a shape by adding a place to its declaration, or else by inserting it. -/
def declareStepwise (shape : Shape) (place : String) : Hoisting Int := do
  match (← get).lookup (← liftM shape.key?) with
  | some id =>
    addPlace id place
    return id
  | none => insert shape place

/-- The check looks the key up and does nothing else. -/
theorem requireNew_apply (key : String) (c : Catalog) :
    requireNew key c = match c.lookup key with
      | some id => (.error (.alreadyDeclared key id), c)
      | none => (.ok (), c) := by
  show (match c.lookup key with
    | some id => throw (.alreadyDeclared key id)
    | _ => pure () : Hoisting Unit) c = _
  cases c.lookup key <;> rfl

/-- Checking the references one by one finds the first that leads nowhere. -/
theorem forM_requireKnown (key : String) (references : List Int) :
    references.forM (requireKnown key) = inspect fun c ↦
      (references.find? (!c.contains ·)).elim (return) (throw <| .forwardReference key ·) := by
  have hinspect : requireKnown key = fun r ↦ inspect fun c ↦
      if c.contains r then return else throw (.forwardReference key r) := by
    funext r c
    show (if c.contains r then _ else _ : Hoisting Unit) c = _
    rw [inspect]
    split <;> rfl
  rw [hinspect, forM_inspect]
  exact congrArg inspect
    (funext fun c ↦ forM_guard c.contains (.forwardReference key) references)

/-- All that insertion checks is checked before its first assignment. The checks only inspect the
catalog, so each of them either fails on the catalog as it was or leaves it to the next one. -/
theorem insert_eq_atomically (shape : Shape) (place : String) :
    insert shape place = atomically fun c ↦ c.insert shape place := by
  -- The cases are the checks in their order; only the last has assignments behind it.
  funext c
  rw [insert, atomically, Catalog.insert]
  cases hkey : shape.key? with
  | error breach => rfl
  | ok key =>
    have hnew := requireNew_apply key c
    rw [bind_of_ok (lift_apply _ c)]
    cases hlookup : c.lookup key with
    | some id =>
      rw [hlookup] at hnew
      rw [bind_of_error hnew]
      simp [bind, Except.bind, throw, throwThe, MonadExceptOf.throw, hlookup]
    | none =>
      have hknown := congrFun (forM_requireKnown key shape.references) c
      rw [hlookup] at hnew
      rw [bind_of_ok hnew]
      cases hfind : shape.references.find? fun r ↦ !c.contains r with
      | some r =>
        rw [inspect, hfind] at hknown
        rw [bind_of_error hknown]
        simp [bind, Except.bind, throw, throwThe, MonadExceptOf.throw, hlookup]
      | none =>
        rw [inspect, hfind] at hknown
        rw [bind_of_ok hknown]
        simp only [bind, Except.bind, pure, Except.pure, hlookup]
        rfl

/-- Adding a place has one assignment, after the only check. -/
theorem addPlace_eq_atomically (id : Int) (place : String) :
    addPlace id place = atomically fun c ↦ (c.addPlace id place).map fun c' ↦ ((), c') := by
  funext c
  show (liftM (c.get id) >>= fun d ↦ _ : Hoisting Unit) c = _
  rw [atomically, Catalog.addPlace]
  cases hd : c.get id with
  | error breach => rfl
  | ok d =>
    rw [bind_of_ok (lift_apply _ c)]
    by_cases hplace : place ∈ d.places
    · simp only [hplace, if_pos, bind, Except.bind, pure, Except.pure, Except.map]
      rfl
    · simp only [hplace, if_false, bind, Except.bind, pure, Except.pure, Except.map]
      rfl

/-- Declaring a shape ends in one of the two, so nothing is half done either. -/
theorem declareStepwise_eq_atomically (shape : Shape) (place : String) :
    declareStepwise shape place = atomically fun c ↦ c.declare shape place := by
  funext c
  rw [atomically, Catalog.declare]
  show (liftM shape.key? >>= fun key ↦ _ : Hoisting Int) c = _
  cases hkey : shape.key? with
  | error breach => rfl
  | ok key =>
    rw [bind_of_ok (lift_apply _ c)]
    cases hlookup : c.lookup key with
    | none =>
      simp only [bind, Except.bind, hlookup]
      rw [insert_eq_atomically, atomically]
    | some id =>
      have hplace := congrFun (addPlace_eq_atomically id place) c
      rw [atomically] at hplace
      simp only [bind, Except.bind, hlookup]
      cases hadd : c.addPlace id place with
      | error breach =>
        rw [hadd] at hplace
        exact bind_of_error hplace _
      | ok c' =>
        rw [hadd] at hplace
        exact bind_of_ok hplace _

/-- What is left of an operation that was run on a catalog, its result put aside. -/
def settle (c : Catalog) : Except Breach (α × Catalog) → Except Breach Unit × Catalog
  | .ok (_, changed) => (.ok (), changed)
  | .error breach => (.error breach, c)

/-- An operation of this kind leaves what `settle` says. -/
theorem discard_atomically (operation : Catalog → Except Breach (α × Catalog)) (c : Catalog) :
    (do let _ ← atomically operation : Hoisting Unit) c = settle c (operation c) := by
  cases hrun : operation c with
  | ok result =>
    have hok : atomically operation c = (.ok result.1, result.2) := by rw [atomically, hrun]
    exact bind_of_ok hok _
  | error breach =>
    have herror : atomically operation c = (.error breach, c) := by rw [atomically, hrun]
    exact bind_of_error herror _

/-- Adds data of which parts may be no JSON, once all of them are found to be. -/
def addDatum (policy : Policy) (document : String) (data : Datum) : Hoisting Shape := do
  addValue policy document (← liftM data.toJson)

/-- Such data add nothing or what a value adds, so whatever calls lead to, they lead to as well. -/
theorem addDatum_snd (policy : Policy) (document : String) (data : Datum) (c : Catalog) :
    (addDatum policy document data c).2 = c ∨
      ∃ value, (addDatum policy document data c).2 = (addValue policy document value c).2 := by
  rw [addDatum]
  cases hvalue : data.toJson with
  | ok value => exact .inr ⟨value, congrArg Prod.snd (bind_of_ok (lift_apply _ c) _)⟩
  | error breach => exact .inl (congrArg Prod.snd (bind_of_error (lift_apply _ c) _))

end Hoisting

/-! ### Refusals -/

namespace Shape

theorem key?_of_foreignKind?_eq_some {s : Shape} {kind : String} (h : s.foreignKind? = some kind) :
    s.key? = .error (.noEncoding kind) := by
  rw [key?, requireEncoding, h]
  rfl

theorem key?_of_foreignKind?_eq_none {s : Shape} (h : s.foreignKind? = none) :
    s.key? = .ok s.key :=
  key?_eq_ok_iff.2 ⟨foreignKind?_eq_none_iff.1 h, rfl⟩

end Shape

namespace Catalog

/-- Why an operation on a single declaration is refused: a part of the shape is no shape, its key is
declared, one of its references leads nowhere (the first such is named), or the number was not given
out. Declaring a shape whose key is declared is never refused for it. -/
inductive Refuses (c : Catalog) : Call → Breach → Prop
  | insertNoEncoding {shape : Shape} {place kind : String}
      (hkind : shape.foreignKind? = some kind) : Refuses c (.insert shape place) (.noEncoding kind)
  | insertDeclared {shape : Shape} {place : String} {id : Int}
      (hkind : shape.foreignKind? = none) (hid : c.lookup shape.key = some id) :
      Refuses c (.insert shape place) (.alreadyDeclared shape.key id)
  | insertForward {shape : Shape} {place : String} {r : Int} (hkind : shape.foreignKind? = none)
      (hnew : c.lookup shape.key = none) (hr : shape.references.find? (!c.contains ·) = some r) :
      Refuses c (.insert shape place) (.forwardReference shape.key r)
  | declareNoEncoding {shape : Shape} {place kind : String}
      (hkind : shape.foreignKind? = some kind) : Refuses c (.declare shape place) (.noEncoding kind)
  | declareForward {shape : Shape} {place : String} {r : Int} (hkind : shape.foreignKind? = none)
      (hnew : c.lookup shape.key = none) (hr : shape.references.find? (!c.contains ·) = some r) :
      Refuses c (.declare shape place) (.forwardReference shape.key r)
  | addPlace {id : Int} {place : String} (hid : c.contains id = false) :
      Refuses c (.addPlace id place) (.unknownDeclaration id)

variable {α : Type} {c : Catalog} {shape : Shape} {place : String} {breach : Breach}

/-- An operation is refused for one of these reasons exactly if it does not succeed. -/
theorem eq_error_iff_refuses {outcome : Except Breach α} {call : Call}
    (hrefused : ∀ breach, c.Refuses call breach → outcome = .error breach)
    (hdone : (∃ a, outcome = .ok a) ∨ ∃ breach, c.Refuses call breach) :
    outcome = .error breach ↔ c.Refuses call breach := by
  refine ⟨fun h ↦ ?_, hrefused breach⟩
  rcases hdone with ⟨a, ha⟩ | ⟨other, hother⟩
  · exact nomatch ha.symm.trans h
  · obtain rfl : other = breach := Except.error.inj ((hrefused other hother).symm.trans h)
    exact hother

/-- An insertion is refused for the reasons listed, in the order of the checks. -/
theorem insert_eq_error_iff :
    c.insert shape place = .error breach ↔ c.Refuses (.insert shape place) breach := by
  refine eq_error_iff_refuses ?_ ?_
  · intro other h
    cases h with
    | insertNoEncoding hkind =>
      rw [insert, Shape.key?_of_foreignKind?_eq_some hkind]
      rfl
    | insertDeclared hkind hid =>
      simp [insert, Shape.key?_of_foreignKind?_eq_none hkind, bind, Except.bind, hid, throw,
        throwThe, MonadExceptOf.throw]
    | insertForward hkind hnew hr =>
      simp [insert, Shape.key?_of_foreignKind?_eq_none hkind, bind, Except.bind, hnew, hr, throw,
        throwThe, MonadExceptOf.throw]
  · cases hkind : shape.foreignKind? with
    | some kind => exact .inr ⟨_, .insertNoEncoding hkind⟩
    | none =>
      cases hlookup : c.lookup shape.key with
      | some id => exact .inr ⟨_, .insertDeclared hkind hlookup⟩
      | none =>
        cases hfind : shape.references.find? fun r ↦ !c.contains r with
        | some r => exact .inr ⟨_, .insertForward hkind hlookup hfind⟩
        | none =>
          have hknown : ∀ r ∈ shape.references, c.contains r = true := by simpa using hfind
          have hforeign := Shape.foreignKind?_eq_none_iff.1 hkind
          exact .inl ⟨_, insert_eq_ok_iff.2 ⟨hforeign, hlookup, hknown, rfl, rfl⟩⟩

/-- Adding a place is refused for numbers that were not given out, and for nothing else. -/
theorem addPlace_eq_error_iff {id : Int} :
    c.addPlace id place = .error breach ↔ c.Refuses (.addPlace id place) breach := by
  refine eq_error_iff_refuses ?_ ?_
  · intro other h
    cases h with | addPlace hid => ?_
    have hd : c.slots.lookup id = none := by simpa [contains] using hid
    rw [addPlace, get, hd]
    rfl
  · cases hd : c.slots.lookup id with
    | some d => exact .inl ⟨_, addPlace_eq_ok_iff.2 ⟨d, hd, rfl⟩⟩
    | none => exact .inr ⟨_, .addPlace (by simp [contains, hd])⟩

/-- In a sound catalog a key leads to a declaration, so a place can be added there. The breaches are
those of the encoding and of an insertion; adding the place cannot fail, since the index leads to
declared numbers only. -/
theorem Sound.declare_eq_error_iff {allowed : Shape → Prop} (hc : Sound allowed c) :
    c.declare shape place = .error breach ↔ c.Refuses (.declare shape place) breach := by
  refine eq_error_iff_refuses ?_ ?_
  · intro other h
    cases h with
    | declareNoEncoding hkind =>
      rw [declare, Shape.key?_of_foreignKind?_eq_some hkind]
      rfl
    | declareForward hkind hnew hr =>
      have hrefuses : c.Refuses (.insert shape place) _ := .insertForward hkind hnew hr
      have hinsert := insert_eq_error_iff.2 hrefuses
      rw [declare, Shape.key?_of_foreignKind?_eq_none hkind]
      simpa [bind, Except.bind, hnew] using hinsert
  · cases hkind : shape.foreignKind? with
    | some kind => exact .inr ⟨_, .declareNoEncoding hkind⟩
    | none =>
      have hforeign := Shape.foreignKind?_eq_none_iff.1 hkind
      cases hlookup : c.lookup shape.key with
      | some id =>
        obtain ⟨d, hd, -⟩ := hc.lookup_eq_some_iff.1 hlookup
        have hplace : c.addPlace id place = .ok _ := addPlace_eq_ok_iff.2 ⟨d, hd, rfl⟩
        exact .inl ⟨(id, _), declare_eq_ok_iff.2 (.inl ⟨hforeign, hlookup, hplace⟩)⟩
      | none =>
        cases hinsert : c.insert shape place with
        | ok result => exact .inl ⟨result, declare_eq_ok_iff.2 (.inr hinsert)⟩
        | error other =>
          cases insert_eq_error_iff.1 hinsert with
          | insertNoEncoding h => exact .inr ⟨_, .declareNoEncoding h⟩
          | insertDeclared _ hid => simp [hlookup] at hid
          | insertForward _ _ hr => exact .inr ⟨_, .declareForward hkind hlookup hr⟩

/-- The operations on single declarations, assignment by assignment. -/
def Call.steps? : Call → Option (Hoisting Unit)
  | .insert shape place => some do let _ ← Hoisting.insert shape place
  | .declare shape place => some do let _ ← Hoisting.declareStepwise shape place
  | .addPlace id place => some (Hoisting.addPlace id place)
  | _ => none

/-- Assignment by assignment, an operation on a single declaration comes down to an outcome that
leaves the catalog as it was if it is a breach, and it is one for the reasons that there are. -/
theorem Sound.steps_eq_settle {allowed : Shape → Prop} (hc : Sound allowed c) {call : Call}
    {steps : Hoisting Unit} (h : call.steps? = some steps) :
    ∃ (α : Type) (outcome : Except Breach (α × Catalog)),
      steps c = Hoisting.settle c outcome ∧ call.run c = (Hoisting.settle c outcome).2 ∧
        ∀ breach, outcome = .error breach ↔ c.Refuses call breach := by
  cases call with
  | insert shape place =>
    obtain rfl := Option.some.inj h
    rw [Hoisting.insert_eq_atomically, Hoisting.discard_atomically]
    refine ⟨_, _, rfl, ?_, fun _ ↦ insert_eq_error_iff⟩
    rw [Call.run]
    cases c.insert shape place <;> rfl
  | declare shape place =>
    obtain rfl := Option.some.inj h
    rw [Hoisting.declareStepwise_eq_atomically, Hoisting.discard_atomically]
    refine ⟨_, _, rfl, ?_, fun _ ↦ hc.declare_eq_error_iff⟩
    rw [Call.run, Hoisting.declare]
    cases c.declare shape place <;> rfl
  | addPlace id place =>
    obtain rfl := Option.some.inj h
    rw [Hoisting.addPlace_eq_atomically, Hoisting.atomically, Call.run]
    refine ⟨Unit, (c.addPlace id place).map fun c' ↦ ((), c'), ?_, ?_, fun breach ↦ ?_⟩
    · cases c.addPlace id place <;> rfl
    · cases c.addPlace id place <;> rfl
    · rw [← addPlace_eq_error_iff]
      cases c.addPlace id place <;> simp [Except.map]
  | hoist | addValue | declareRoot => simp [Call.steps?] at h

/-- Whatever has been called before, each call makes the catalog grow at most, also one that fails
on its way and the addition of data that are no JSON. An operation on a single declaration that
fails, for whichever of the reasons, leaves the catalog exactly as it was. -/
theorem append_only (calls : List Call) :
    let c := empty.after calls
    (∀ call : Call, c.Grows (call.run c)) ∧
      (∀ policy document data, c.Grows (Hoisting.addDatum policy document data c).2) ∧
      ∀ (call : Call) (steps : Hoisting Unit), call.steps? = some steps →
        (steps c).2 = call.run c ∧
          (∀ breach, (steps c).1 = .error breach ↔ c.Refuses call breach) ∧
          ∀ breach, (steps c).1 = .error breach → (steps c).2 = c := by
  intro c
  have hc : Sound (fun _ ↦ True) c :=
    (reaches_after (fun _ _ ↦ trivial) (fun _ _ _ _ ↦ trivial) empty).sound (sound_empty _)
  have hgrows (call : Call) : c.Grows (call.run c) :=
    (Call.reaches_run (fun _ _ ↦ trivial) (fun _ _ ↦ trivial) c).grows hc
  refine ⟨hgrows, fun policy document data ↦ ?_, fun call steps hsteps ↦ ?_⟩
  · rcases Hoisting.addDatum_snd policy document data c with h | ⟨value, h⟩
    · rw [h]
      exact .refl
    · rw [h]
      exact hgrows (.addValue policy document value)
  · obtain ⟨α, outcome, heq, hrun, hrefuses⟩ := hc.steps_eq_settle hsteps
    rw [heq, hrun]
    simp only [← hrefuses]
    cases outcome <;> simp [Hoisting.settle]

/-- After a call that was refused: a shape is hoisted up to a part that is none, and what was before
that part stays declared; the operations on single declarations, refused for four reasons, leave no
trace. -/
theorem append_only_refused :
    let calls : List Call := [.declareRoot .emptyArray "1.json", .insert (.array (.ref 9)) "2.json"]
    let c := empty.after calls
    let thing : Shape := .foreign ⟨"set", .changing⟩
    let partly : Call := .hoist (.object [⟨"a", false, .object [⟨"b", false, .prim .null⟩] ["b"]⟩,
      ⟨"c", true, thing⟩] ["a", "c"]) "3.json" ""
    (c.Grows (partly.run c) ∧ (partly.run c).size = c.size + 1) ∧
      ∀ call ∈ [Call.insert .emptyArray "4.json", .insert (.array (.ref 9)) "4.json",
          .declare thing "4.json", .addPlace 9 "4.json"],
        (∃ breach, c.Refuses call breach) ∧ call.run c = c := by
  intro calls c thing partly
  obtain ⟨hgrows, -, hsteps⟩ := append_only calls
  have hrefused {call : Call} {steps : Hoisting Unit} {breach : Breach}
      (h : call.steps? = some steps) (hbreach : c.Refuses call breach) :
      (∃ breach, c.Refuses call breach) ∧ call.run c = c := by
    obtain ⟨hrun, hrefuses, hkept⟩ := hsteps call steps h
    exact ⟨⟨breach, hbreach⟩, hrun.symm.trans (hkept breach ((hrefuses breach).2 hbreach))⟩
  have hdeclared : c.lookup Shape.emptyArray.key = some 1 := by
    simp only [c, calls]
    cbv
  have hnew : c.lookup (Shape.array (.ref 9)).key = none := by
    simp only [c, calls]
    cbv
  have hunknown : c.contains 9 = false := by
    simp only [c, calls]
    cbv
  have hforward : (Shape.array (.ref 9)).references.find? (!c.contains ·) = some 9 := by
    show List.find? _ [9] = some 9
    simp [hunknown]
  refine ⟨⟨hgrows partly, ?_⟩, ?_⟩
  · simp only [c, calls, partly, thing]
    cbv
  · simp only [List.forall_mem_cons]
    exact ⟨hrefused rfl (.insertDeclared rfl hdeclared),
      hrefused rfl (.insertForward rfl hnew hforward), hrefused rfl (.declareNoEncoding rfl),
      hrefused rfl (.addPlace hunknown), by simp⟩

end Catalog

end JsonShapes
