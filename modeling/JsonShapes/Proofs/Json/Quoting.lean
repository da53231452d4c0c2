import JsonShapes.Proofs.Json.Spelling
import JsonShapes.Proofs.Text.Quoted

/-!
# Quoted texts spell what was quoted

A text between quotes is a JSON document that spells it, whichever of its characters are written as
codes (`parse_quoteWith`). The reader goes through the characters one by one, and the code points
that it gathers are those of the text: no character is half of a surrogate pair, so none are joined.

The way of writing a character is left open (`Writes`): as itself, as a letter after a backslash, or
as a code. What is needed is that the reader takes what is written for the character and nothing
else, and that no quote ends the text before its end. So the result serves for property keys, in
which line ends are written as codes, and for texts in compact form alike.

Quoted texts are also told apart by this: if two of them, with something behind each, are the same
to the last character, so are the texts and what stands behind them (`flatMap_write_inj`).
-/

namespace JsonShapes.Json

/-- What a character may be written as between quotes: as usual, or as a code if four digits can
hold it. -/
def Writes (write : Char → List Char) : Prop :=
  ∀ c, write c = Quoted.escape c ∨ c.toNat < 0x10000 ∧ write c = Quoted.codeEscape c

namespace Reader

/-- The code points of characters are not joined. -/
theorem joinSurrogates_map_toNat (cs : List Char) :
    joinSurrogates (cs.map Char.toNat) = cs.map Char.toNat :=
  joinSurrogates_eq_self (List.forall_mem_map.2 fun c _ ↦ isSurrogate_toNat c)

/-- The code points of characters spell them, and nothing stands in for any. -/
theorem spell_map_toNat (standIn : Char) (cs : List Char) :
    spell standIn (cs.map Char.toNat) = String.ofList cs := by
  rw [spell, List.map_map]
  refine congrArg String.ofList ((List.map_congr_left fun c _ ↦ ?_).trans (List.map_id cs))
  show (if isSurrogate c.toNat then standIn else Char.ofNat c.toNat) = c
  rw [isSurrogate_toNat, if_neg Bool.false_ne_true, Char.ofNat_toNat]

variable {opening : List Char}

/-- Four digits that were written for a character are read as its code point. The reader wants a
further character behind them, which in a quoted text is the closing quote at the latest. -/
theorem stringBody_codeEscape (done : List Nat) {c : Char} (hc : c.toNat < 0x10000) (d : Char)
    (rest : List Char) (h : (Quoted.codeEscape c ++ d :: rest).length < opening.length)
    (h' : (d :: rest).length < opening.length) :
    stringBody opening done (Quoted.codeEscape c ++ d :: rest) h =
      stringBody opening (c.toNat :: done) (d :: rest) h' := by
  have hnumber := Quoted.hexNumber?_digits hc
  simp only [List.map_cons, List.map_nil] at hnumber
  simp only [Quoted.codeEscape, List.map_cons, List.map_nil, List.cons_append, List.nil_append]
  rw [stringBody]
  simp only [hnumber]

/-- A character as it is usually written is read as its code point: as a letter behind a backslash,
as a code, or as itself. -/
theorem stringBody_escape (done : List Nat) (c d : Char) (rest : List Char)
    (h : (Quoted.escape c ++ d :: rest).length < opening.length)
    (h' : (d :: rest).length < opening.length) :
    stringBody opening done (Quoted.escape c ++ d :: rest) h =
      stringBody opening (c.toNat :: done) (d :: rest) h' := by
  revert h
  rw [Quoted.escape.eq_def]
  split <;> intro h <;> try rfl
  rename_i hquote hbackslash _ _ _ _ _
  revert h
  split <;> intro h
  · exact stringBody_codeEscape done (by omega) d rest h h'
  · next hprintable =>
    simp only [List.singleton_append]
    rw [stringBody]
    · rw [if_neg hprintable]
    all_goals simp_all

/-- A character that is written between quotes is read as its code point, if anything follows. -/
theorem stringBody_write {write : Char → List Char} (hwrite : Writes write) (done : List Nat)
    (c : Char) {after : List Char} (hafter : after ≠ [])
    (h : (write c ++ after).length < opening.length) (h' : after.length < opening.length) :
    stringBody opening done (write c ++ after) h =
      stringBody opening (c.toNat :: done) after h' := by
  obtain ⟨d, rest, rfl⟩ := List.exists_cons_of_ne_nil hafter
  revert h
  rcases hwrite c with hc | ⟨hsmall, hc⟩
  · rw [hc]
    exact fun h ↦ stringBody_escape done c d rest h h'
  · rw [hc]
    exact fun h ↦ stringBody_codeEscape done hsmall d rest h h'

/-- A text that is written between quotes is read up to the closing quote. -/
theorem stringBody_flatMap_write {write : Char → List Char} (hwrite : Writes write)
    (done : List Nat) (cs rest : List Char)
    (h : (cs.flatMap write ++ '"' :: rest).length < opening.length) :
    ∃ hrest, stringBody opening done (cs.flatMap write ++ '"' :: rest) h =
      .ok ⟨joinSurrogates (done.reverse ++ cs.map Char.toNat), rest, hrest⟩ := by
  induction cs generalizing done with
  | nil =>
    have hrest : rest.length < opening.length := (Nat.lt_succ_self _).trans h
    refine ⟨hrest, ?_⟩
    rw [List.map_nil, List.append_nil]
    rfl
  | cons c cs ih =>
    have happend : (c :: cs).flatMap write ++ '"' :: rest =
        write c ++ (cs.flatMap write ++ '"' :: rest) := by
      rw [List.flatMap_cons, List.append_assoc]
    have hshorter : (cs.flatMap write ++ '"' :: rest).length < opening.length := by
      rw [happend, List.length_append] at h
      omega
    obtain ⟨hrest, hread⟩ := ih (c.toNat :: done) hshorter
    refine ⟨hrest, ?_⟩
    revert h
    rw [happend]
    intro h
    rw [stringBody_write hwrite done c (by simp) h hshorter, hread, List.reverse_cons,
      List.append_assoc, List.singleton_append, List.map_cons]

end Reader

/-- Texts between quotes are the same, and so is what follows, if they are written the same. -/
theorem flatMap_write_inj {write : Char → List Char} (hwrite : Writes write)
    {cs ds r r' : List Char} (h : cs.flatMap write ++ '"' :: r = ds.flatMap write ++ '"' :: r') :
    cs = ds ∧ r = r' := by
  let opening := '"' :: (cs.flatMap write ++ '"' :: r)
  have hshorter : (cs.flatMap write ++ '"' :: r).length < opening.length := Nat.lt_succ_self _
  obtain ⟨hr, hread⟩ := Reader.stringBody_flatMap_write hwrite [] cs r hshorter
  obtain ⟨hr', hread'⟩ := Reader.stringBody_flatMap_write hwrite [] ds r' (h ▸ hshorter)
  have hreads : ∀ {x y : List Char} (hx hy), x = y →
      Reader.stringBody opening [] x hx = Reader.stringBody opening [] y hy := by
    rintro _ _ _ _ rfl
    rfl
  have heq := hread.symm.trans ((hreads _ _ h).trans hread')
  simp only [List.reverse_nil, List.nil_append, Reader.joinSurrogates_map_toNat, Except.ok.injEq,
    Parsed.mk.injEq] at heq
  exact ⟨List.map_injective_iff.2 (fun _ _ ↦ Char.toNat_inj.1) heq.1, heq.2⟩

/-- A text in quotes is a document that spells the text. -/
theorem parse_quoteWith {write : Char → List Char} (hwrite : Writes write) (text : String) :
    parse (Quoted.quoteWith write text).toList = .ok (.string text) := by
  let inside := text.toList.flatMap write ++ ['"']
  have hshorter : inside.length < ('"' :: inside).length := Nat.lt_succ_self _
  obtain ⟨hrest, hread⟩ := Reader.stringBody_flatMap_write hwrite [] text.toList [] hshorter
  rw [List.reverse_nil, List.nil_append, Reader.joinSurrogates_map_toNat] at hread
  have hvalue : Reader.value replacement ('"' :: inside) = .ok ⟨.string text, [], hrest⟩ := by
    rw [Reader.value.eq_def]
    simp only [inside, hread]
    show Except.ok _ = _
    rw [Reader.spell_map_toNat, String.ofList_toList]
  have hdocument : Reader.document replacement ('"' :: inside) = .ok (.string text) := by
    have hmark : ('"' :: inside).head? ≠ some '\uFEFF' := by simp
    have hskip : Reader.skip ('"' :: inside) = '"' :: inside := rfl
    rw [Reader.document, if_neg hmark, hskip, hvalue]
    rfl
  rw [Quoted.quoteWith, String.toList_ofList, parse, parseWith, hdocument]

end JsonShapes.Json
