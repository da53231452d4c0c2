import JsonShapes.Catalog.Hoist
import JsonShapes.Proofs.Catalog.Changes

/-!
# Computations that extend a catalog

Two things are said of such a computation. Whatever its outcome, it only makes changes that are
allowed (`Hoisting.Extends`); this survives a breach, after which the changes before it stand. And
started in a given catalog it may be bound to succeed (`Hoisting.Yields`), with a result that has to
do with the catalog it leaves. Both pass through sequencing and through lists, so that a computation
is judged by its parts.

A postcondition of the first kind speaks of the result alone, as it must hold in any catalog; one of
the second kind speaks of the result and the catalog that is left, for which it must not be spoilt
by what comes later (`hmono` in `Yields.mapM`).
-/

namespace JsonShapes.Hoisting

open Catalog

variable {α β : Type} {allowed : Shape → Prop} {c c' : Catalog}

/-! ### Running -/

theorem lift_apply (result : Except Breach α) (c : Catalog) :
    (liftM result : Hoisting α) c = (result, c) := rfl

/-- What comes next is run on the catalog that is left. -/
theorem bind_of_ok {m : Hoisting α} {a : α} (h : m c = (.ok a, c')) (f : α → Hoisting β) :
    (m >>= f) c = f a c' := by
  show ExceptT.bindCont f (m c).1 (m c).2 = f a c'
  rw [h]
  rfl

/-- After a breach nothing is run, and the catalog stays as the breach left it. -/
theorem bind_of_error {m : Hoisting α} {breach : Breach} (h : m c = (.error breach, c'))
    (f : α → Hoisting β) : (m >>= f) c = (.error breach, c') := by
  show ExceptT.bindCont f (m c).1 (m c).2 = _
  rw [h]
  rfl

/-- A run that declares a shape is the declaration of the shape. -/
theorem declare_apply_eq_ok_iff {t : Shape} {place : String} {id : Int} :
    declare t place c = (.ok id, c') ↔ c.declare t place = .ok (id, c') := by
  refine ⟨fun h ↦ ?_, fun h ↦ by rw [declare, h]⟩
  rw [declare] at h
  split at h
  · obtain ⟨heq, rfl⟩ := Prod.mk.inj h
    rwa [← Except.ok.inj heq]
  · exact absurd (Prod.mk.inj h).1 (by simp)

/-! ### What may become of the catalog -/

/-- The computation changes the catalog in allowed ways only, and has such results only. -/
def Extends (allowed : Shape → Prop) (m : Hoisting α) (post : α → Prop) : Prop :=
  ∀ c, Reaches allowed c (m c).2 ∧ ∀ a, (m c).1 = .ok a → post a

namespace Extends

theorem pure {post : α → Prop} {a : α} (h : post a) : Extends allowed (pure a) post := by
  intro c
  refine ⟨.refl, ?_⟩
  rintro _ ⟨⟩
  exact h

theorem lift (result : Except Breach α) :
    Extends allowed (liftM result : Hoisting α) fun a ↦ result = .ok a :=
  fun _ ↦ ⟨.refl, fun _ h ↦ h⟩

theorem bind {m : Hoisting α} {f : α → Hoisting β} {post : α → Prop} {post' : β → Prop}
    (hm : Extends allowed m post) (hf : ∀ a, post a → Extends allowed (f a) post') :
    Extends allowed (m >>= f) post' := by
  intro c
  obtain ⟨hreaches, hpost⟩ := hm c
  rcases hrun : m c with ⟨result, c₁⟩
  rw [hrun] at hreaches hpost
  cases result with
  | error breach =>
    rw [bind_of_error hrun]
    exact ⟨hreaches, nofun⟩
  | ok a =>
    rw [bind_of_ok hrun]
    obtain ⟨hreaches', hpost'⟩ := hf a (hpost a rfl) c₁
    exact ⟨hreaches.trans hreaches', hpost'⟩

/-- Declaring an allowed shape is one change at most. -/
theorem declare {s : Shape} (h : allowed s) (place : String) :
    Extends allowed (Hoisting.declare s place) fun _ ↦ True := by
  intro c
  refine ⟨?_, fun _ _ ↦ trivial⟩
  rw [Hoisting.declare]
  cases hdeclare : c.declare s place with
  | error breach => exact .refl
  | ok result => exact .single (change_of_declare h hdeclare)

/-- A root is declared unless it is a reference. -/
theorem declareRoot {s : Shape} (h : allowed s) (document : String) :
    Extends allowed (Hoisting.declareRoot s document) fun _ ↦ True := by
  rw [Hoisting.declareRoot.eq_def]
  split
  · exact pure trivial
  · exact declare h document

theorem mapM {f : α → Hoisting β} {R : β → α → Prop} {l : List α}
    (h : ∀ a ∈ l, Extends allowed (f a) fun b ↦ R b a) :
    Extends allowed (l.mapM f) fun bs ↦ List.Forall₂ R bs l := by
  induction l with
  | nil =>
    rw [List.mapM_nil]
    exact pure .nil
  | cons a l ih =>
    obtain ⟨ha, hl⟩ := List.forall_mem_cons.1 h
    rw [List.mapM_cons]
    exact bind ha fun b hb ↦ bind (ih hl) fun bs hbs ↦ pure (.cons hb hbs)

/-- What holds of the accumulated result before each step holds of it in the end. -/
theorem foldlM {f : β → α → Hoisting β} {post : β → Prop} {l : List α}
    (h : ∀ a ∈ l, ∀ b, post b → Extends allowed (f b a) post) {b : β} (hb : post b) :
    Extends allowed (l.foldlM f b) post := by
  induction l generalizing b with
  | nil => exact pure hb
  | cons a l ih =>
    obtain ⟨ha, hl⟩ := List.forall_mem_cons.1 h
    rw [List.foldlM_cons]
    exact bind (ha b hb) fun b' hb' ↦ ih hl hb'

end Extends

/-! ### When a computation succeeds -/

/-- In this catalog the computation succeeds, making allowed changes only, and its result stands in
this relation to the catalog that it leaves. -/
def Yields (allowed : Shape → Prop) (c : Catalog) (m : Hoisting α) (post : Catalog → α → Prop) :
    Prop :=
  ∃ a c', m c = (.ok a, c') ∧ Reaches allowed c c' ∧ post c' a

namespace Yields

/-- What is known of a computation that succeeds is known of any run of it. -/
theorem of_run {m : Hoisting α} {post : Catalog → α → Prop} {a : α} (h : Yields allowed c m post)
    (hrun : m c = (.ok a, c')) : Reaches allowed c c' ∧ post c' a := by
  obtain ⟨b, c₁, hrun', hreaches, hpost⟩ := h
  obtain ⟨heq, rfl⟩ := Prod.mk.inj (hrun.symm.trans hrun')
  exact Except.ok.inj heq ▸ ⟨hreaches, hpost⟩

theorem pure {post : Catalog → α → Prop} {a : α} (h : post c a) :
    Yields allowed c (pure a) post :=
  ⟨a, c, rfl, .refl, h⟩

theorem bind {m : Hoisting α} {f : α → Hoisting β} {post : Catalog → α → Prop}
    {post' : Catalog → β → Prop} (hm : Yields allowed c m post)
    (hf : ∀ c' a, Reaches allowed c c' → post c' a → Yields allowed c' (f a) post') :
    Yields allowed c (m >>= f) post' := by
  obtain ⟨a, c₁, hrun, hreaches, hpost⟩ := hm
  obtain ⟨b, c₂, hrun', hreaches', hpost'⟩ := hf c₁ a hreaches hpost
  exact ⟨b, c₂, (bind_of_ok hrun f).trans hrun', hreaches.trans hreaches', hpost'⟩

/-- What every item yields in the catalogs to come, the list yields, item by item. -/
theorem mapM {f : α → Hoisting β} {R : Catalog → β → α → Prop}
    (hmono : ∀ {c c' b a}, Reaches allowed c c' → Sound allowed c → R c b a → R c' b a)
    {l : List α} (h : ∀ a ∈ l, ∀ c, Sound allowed c → Yields allowed c (f a) fun c' b ↦ R c' b a)
    (hc : Sound allowed c) :
    Yields allowed c (l.mapM f) fun c' bs ↦ List.Forall₂ (R c') bs l := by
  induction l generalizing c with
  | nil =>
    rw [List.mapM_nil]
    exact pure .nil
  | cons a l ih =>
    rw [List.mapM_cons]
    refine bind (h a List.mem_cons_self c hc) fun c₁ b hreaches hb ↦ ?_
    have hc₁ := hreaches.sound hc
    refine bind (ih (fun a ha ↦ h a (List.mem_cons_of_mem _ ha)) hc₁) fun c₂ bs hreaches' hbs ↦ ?_
    exact pure (.cons (hmono hreaches' hc₁ hb) hbs)

end Yields

/-! ### Fields, one after another -/

/-- Fields are hoisted one after another, each at its own pointer. -/
theorem fields_eq_mapM (pointer : String) (fs : List (Field Deferred)) :
    fields pointer fs = fs.mapM fun f ↦ do
      return ⟨f.name, f.optional, ← f.content (Pointer.extend pointer (.member f.name))⟩ := by
  induction fs with
  | nil => rfl
  | cons f fs ih => simp only [fields, List.mapM_cons, ih, bind_assoc, pure_bind]

end JsonShapes.Hoisting
