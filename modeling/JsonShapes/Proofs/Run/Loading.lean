import JsonShapes.Proofs.Catalog.Verifying
import JsonShapes.Proofs.Json.Spelling
import JsonShapes.Proofs.Run.Module

/-!
# What becomes of documents that are read, and of the first that is not

If all documents are read, nothing else ends a plan (`exists_planAll_eq_ok`): values can always be
added to the catalog, the catalog keeps its rules, and all its declarations have lines. If some are
not, the plan ends with the fault of the first of these, after what is planned for the documents
before it (`planAll_eq_error`).

A plan takes nothing from a document but the shape of its value, and a shape has names, which are
texts. A name with a lone half of a surrogate pair is no text, and a stand-in takes the place of the
half when the document is read. `Spelled` says that this makes no difference. It matters where a run
is said to succeed: what is written about such a name would have no octets. A document without code
escapes for halves is spelled in any case (`spelled_of_halfFree`).
-/

namespace JsonShapes.Run

open Catalog Shape

variable {α β : Type} {p p' : Progress} {settings : Settings} {folders : Folders}

/-! ### Faults of documents -/

/-- The fault of a document below a folder that is not read. -/
def Fails (folders : Folders) (document : String × List UInt8) (fault : Fault) : Prop :=
  Document.read (Path.absolute (folders.input ++ [document.1])).text document.2 = .error fault

/-- The fault of a document names it, unless a whole number is too long. -/
theorem Fails.cases {document : String × List UInt8} {fault : Fault}
    (h : Fails folders document fault) :
    (∃ refusal, Utf8.decode document.2 = .error refusal ∧
      fault = .malformed (Path.absolute (folders.input ++ [document.1])).text
        ("not valid UTF-8 (" ++ refusal.message ++ ")")) ∨
    ∃ text, Utf8.decode document.2 = .ok text ∧
      ((∃ cause line column,
        Json.parse (Newline.unify text) = .error (.malformed cause line column) ∧
          fault = .malformed (Path.absolute (folders.input ++ [document.1])).text
            (Document.detail cause line column)) ∨
      Json.parse (Newline.unify text) = .error .integerTooLong ∧ fault = .integerTooLong) := by
  rw [Fails, Document.read, Document.readWith] at h
  split at h
  · next refusal hdecode =>
    cases h
    exact .inl ⟨refusal, hdecode, rfl⟩
  · next text hdecode =>
    refine .inr ⟨text, hdecode, ?_⟩
    split at h
    · cases h
    · next cause line column hparse =>
      cases h
      exact .inl ⟨cause, line, column, hparse, rfl⟩
    · next hparse =>
      cases h
      exact .inr ⟨hparse, rfl⟩

/-- The first of some documents that is not read, with those before it and with its fault. -/
structure FirstFault (folders : Folders) (documents before : List (String × List UInt8))
    (document : String × List UInt8) (fault : Fault) : Prop where
  /-- The document comes directly after those before it. -/
  leading : before ++ [document] <+: documents
  /-- All of these are read. -/
  reads : ∃ values, List.Forall₂ (Reads folders) before values
  /-- The document is not read. -/
  fails : Fails folders document fault

/-- All documents are read, or one of them is the first that is not. -/
theorem reads_or_firstFault (folders : Folders) (documents : List (String × List UInt8)) :
    (∃ values, List.Forall₂ (Reads folders) documents values) ∨
      ∃ before document fault, FirstFault folders documents before document fault := by
  induction documents with
  | nil => exact .inl ⟨[], .nil⟩
  | cons first documents ih =>
    cases hread : Document.read (Path.absolute (folders.input ++ [first.1])).text first.2 with
    | error fault =>
      exact .inr ⟨[], first, fault, List.prefix_append [first] documents, ⟨[], .nil⟩, hread⟩
    | ok value =>
      rcases ih with ⟨values, hvalues⟩ |
        ⟨before, document, fault, hleading, ⟨values, hvalues⟩, hfails⟩
      · exact .inl ⟨value :: values, .cons hread hvalues⟩
      · exact .inr ⟨first :: before, document, fault, List.cons_prefix_cons.2 ⟨rfl, hleading⟩,
          ⟨value :: values, .cons hread hvalues⟩, hfails⟩

/-! ### Documents that are spelled -/

/-- All that a run takes from a document, the shape of its value, is the same whichever character
stands in for lone halves of surrogate pairs. So no name in the shape has a lone half, and what is
written about the document is text; a lone half has no octets. A text that is a value may have lone
halves, as its shape does not show them. -/
def Spelled (policy : Policy) (document : String × List UInt8) : Prop :=
  ∀ standIn, (Document.readWith standIn document.1 document.2).map (Shape.ofJson policy) =
    (Document.read document.1 document.2).map (Shape.ofJson policy)

/-- A document is spelled if no code escape in its text is for half of a surrogate pair. -/
theorem spelled_of_halfFree (policy : Policy) {document : String × List UInt8}
    (h : ∀ text, Utf8.decode document.2 = .ok text →
      Json.Reader.HalfFree (Newline.unify text)) : Spelled policy document := by
  intro standIn
  rw [Document.read, Document.readWith, Document.readWith]
  cases hdecode : Utf8.decode document.2 with
  | error refusal => rfl
  | ok text =>
    simp only
    rw [Json.parseWith_eq_parse (h text hdecode) standIn, Json.parse]

set_option maxRecDepth 100000 in
/-- A document with a lone half as a name is not spelled. -/
example : ¬Spelled .union ("a.json", Utf8.encode "\x7b\"\\ud800\": \"\"\x7d") := by
  intro h
  have hshape (c : Char) (hc : c = 'a' ∨ c = '\uFFFD') :
      (Document.readWith c "a.json" (Utf8.encode "\x7b\"\\ud800\": \"\"\x7d")).map
          (Shape.ofJson .union) =
        .ok (.object [⟨String.ofList [c], false, .prim .string⟩] [String.ofList [c]]) := by
    rcases hc with rfl | rfl <;> cbv
  have hsame := (hshape 'a' (.inl rfl)).symm.trans ((h 'a').trans (hshape '\uFFFD' (.inr rfl)))
  exact absurd hsame (by simp)

/-! ### Running plans -/

/-- After a step that succeeds the rest goes on from where it has led. -/
theorem bind_of_ok {m : Planning α} {a : α} (h : m p = (.ok a, p')) (f : α → Planning β) :
    (m >>= f) p = f a p' := by
  show ExceptT.bindCont f (m p).1 (m p).2 = _
  rw [h]
  rfl

/-- After a fault nothing is planned any more. -/
theorem bind_of_error {m : Planning α} {fault : Fault} (h : m p = (.error fault, p'))
    (f : α → Planning β) : (m >>= f) p = (.error fault, p') := by
  show ExceptT.bindCont f (m p).1 (m p).2 = _
  rw [h]
  rfl

theorem result_of_eq {result result' : Except Fault α} (h : result = result') (p : Progress) :
    (ExceptT.mk (pure result) : Planning α) p = (result', p) := by
  rw [h]
  rfl

theorem planned_bind (effect : Effect) (m : Planning α) (p : Progress) :
    (do planned effect; m) p = m ⟨p.catalog, p.effects ++ [effect]⟩ := rfl

/-! ### Documents -/

section Documents

variable (settings) (total number : Nat) {documents before : List (String × List UInt8)}
  {document : String × List UInt8} {values : List Json} {fault : Fault}

/-- Documents have stubs. -/
def HaveStubs (documents : List (String × List UInt8)) : Prop :=
  ∀ document ∈ documents, ∃ stub, Path.stub? document.1 = some stub

/-- What is planned for a document that is read succeeds. -/
theorem exists_planDocument_eq_ok {value : Json} (hc : Sound Sorted p.catalog)
    (hstub : ∃ stub, Path.stub? document.1 = some stub) (hread : Reads folders document value) :
    ∃ emitted p', planDocument settings folders total number document.1 document.2 p =
      (.ok emitted, p') ∧ Sound Sorted p'.catalog := by
  obtain ⟨stubPath, hstub⟩ := hstub
  obtain ⟨root, c, hadd, hreaches, -⟩ :=
    yields_addDocument settings.policy document.1 hread.keyed hc
  have hextending : extending (Hoisting.addDocument settings.policy document.1 value) p =
      (.ok root, ⟨c, p.effects⟩) := by
    rw [extending, hadd]
  rw [planDocument, bind_of_ok (result_of_eq hread p), bind_of_ok hextending, hstub]
  exact ⟨_, _, rfl, hreaches.sound hc⟩

/-- So is what is planned for several documents. The catalog is sound after each, which is what the
next one needs. -/
theorem exists_planDocuments_eq_ok (hc : Sound Sorted p.catalog) (hstubs : HaveStubs documents)
    (hreads : List.Forall₂ (Reads folders) documents values) :
    ∃ emitted p', planDocuments settings folders total number documents p = (.ok emitted, p') ∧
      Sound Sorted p'.catalog := by
  induction hreads generalizing number p with
  | nil => exact ⟨[], p, rfl, hc⟩
  | cons hread _ ih =>
    obtain ⟨hstub, hstubs⟩ := List.forall_mem_cons.1 hstubs
    obtain ⟨first, p₁, hfirst, hc₁⟩ :=
      exists_planDocument_eq_ok settings total number hc hstub hread
    obtain ⟨rest, p₂, hrest, hc₂⟩ := ih (number + 1) hc₁ hstubs
    refine ⟨first :: rest, p₂, ?_, hc₂⟩
    rw [planDocuments, bind_of_ok hfirst, bind_of_ok hrest]
    rfl

/-- The first document that is not read ends what is planned for documents, and nothing is planned
for it. -/
theorem planDocuments_eq_error {emitted : List Emitted}
    (hbefore : planDocuments settings folders total number before p = (.ok emitted, p'))
    (hleading : before ++ [document] <+: documents) (hfails : Fails folders document fault) :
    planDocuments settings folders total number documents p = (.error fault, p') := by
  obtain ⟨after, rfl⟩ := hleading
  induction before generalizing number p emitted with
  | nil =>
    cases hbefore
    exact bind_of_error (bind_of_error (result_of_eq hfails _) _) _
  | cons first before ih =>
    obtain ⟨head, p₁, hfirst, hbefore⟩ := bind_eq_ok hbefore
    obtain ⟨tail, p₂, hrest, hbefore⟩ := bind_eq_ok hbefore
    cases hbefore
    rw [List.cons_append, List.cons_append, planDocuments, bind_of_ok hfirst]
    exact bind_of_error (ih _ hrest) _

end Documents

/-! ### Whole runs -/

/-- What is planned when all documents are done succeeds. -/
theorem exists_planModule_eq_ok (settings : Settings) (folders : Folders) (emitted : List Emitted)
    {allowed : Shape → Prop} (hc : Sound allowed p.catalog) :
    ∃ summary p', planModule settings folders emitted p = (.ok summary, p') := by
  have hverify : Fault.ofBreach p.catalog.verify = .ok () := by
    rw [hc.verify_eq_ok]
    rfl
  obtain ⟨text, htext⟩ : ∃ text, Fault.ofBreach
      (p.catalog.moduleText settings.style (Summary.exported ⟨p.catalog, emitted⟩)) = .ok text :=
    ⟨_, congrArg Fault.ofBreach (hc.moduleText_eq_ok _ _)⟩
  rw [planModule, bind_of_ok (show (get : Planning Progress) p = (.ok p, p) from rfl)]
  simp only [orBreach]
  rw [bind_of_ok (result_of_eq hverify p), planned_bind, planned_bind,
    bind_of_ok (result_of_eq htext _), planned_bind, planned_bind]
  split
  · exact ⟨_, _, rfl⟩
  · cases warning? settings.style p.catalog.unresolved <;> exact ⟨_, _, rfl⟩

/-- If all documents are read, a plan succeeds. -/
theorem exists_planAll_eq_ok (settings : Settings) {documents : List (String × List UInt8)}
    {values : List Json} (hstubs : HaveStubs documents)
    (hreads : List.Forall₂ (Reads folders) documents values) :
    ∃ summary p, planAll settings folders documents ⟨.empty, []⟩ = (.ok summary, p) := by
  obtain ⟨emitted, p, hdocuments, hc⟩ := exists_planDocuments_eq_ok settings
    documents.length 1 (p := ⟨.empty, [.say "Parsing JSON files..."]⟩) (sound_empty Sorted)
    hstubs hreads
  obtain ⟨summary, p', hmodule⟩ := exists_planModule_eq_ok settings folders emitted hc
  refine ⟨summary, p', ?_⟩
  rw [planAll, planned_bind]
  exact (bind_of_ok hdocuments _).trans hmodule

/-- A plan ends with the fault of the first document that is not read, after what is planned for the
documents before. -/
theorem planAll_eq_error (settings : Settings) {documents before : List (String × List UInt8)}
    {document : String × List UInt8} {fault : Fault} (hstubs : HaveStubs documents)
    (h : FirstFault folders documents before document fault) : ∃ emitted p,
      planDocuments settings folders documents.length 1 before
        ⟨.empty, [.say "Parsing JSON files..."]⟩ = (.ok emitted, p) ∧
      planAll settings folders documents ⟨.empty, []⟩ = (.error fault, p) := by
  obtain ⟨values, hreads⟩ := h.reads
  have hsubset : before ⊆ documents := fun d hd ↦
    h.leading.subset (List.mem_append_left _ hd)
  obtain ⟨emitted, p, hbefore, -⟩ := exists_planDocuments_eq_ok settings
    documents.length 1 (p := ⟨.empty, [.say "Parsing JSON files..."]⟩) (sound_empty Sorted)
    (fun d hd ↦ hstubs d (hsubset hd)) hreads
  refine ⟨emitted, p, hbefore, ?_⟩
  rw [planAll, planned_bind]
  exact bind_of_error (planDocuments_eq_error _ _ _ hbefore h.leading h.fails) _

end JsonShapes.Run
