import JsonShapes.Proofs.Identifier
import JsonShapes.Settings

/-!
# What a configuration may be

Whatever is found in place of a configuration, either settings are made of it or it is refused
(`load_exact`). `Source.Reads` and `Chooses` list all that is refused: a policy of another name, and
what may be met on the way to it, octets that are no text and whole numbers that are too long. A
configuration that does not exist or is no TOML makes the standard settings, and so does, setting by
setting, an entry of another kind than is expected. The stem of aliases is always an identifier, and
the module of all aliases always has a name.

Reading comes in two layers, each with a relation that lists its outcomes and a function that is
shown to agree with it: `Source.Reads` with `Source.table`, and `Chooses` with `policyOf`. The
relations are told from the text of a configuration without going through the functions, so the iff
between them (`table_eq_iff`, `policyOf_eq_iff`) says what is refused as well as that nothing else
is.

## What is refused, and what is passed over

Three things are refused: octets that are no text, a whole number that is too long, and a policy of
another name. A setting of the wrong kind is passed over, as is all of a text that is no TOML, and a
configuration that is not there. This asymmetry is what `load_exact` spells out, in one statement
about all sources. A source that is no text is refused although a text that is no TOML is not;
`load_no_text` is the shortest instance.

What follows from settings that were loaded is `Follows`: each of them is the entry of the table, if
it has one of the right kind, or the standard.
-/

namespace JsonShapes.Settings

variable {source : Source} {table : Toml.Table} {part name : String} {value : Toml.Value}
  {result : Except Fault Toml.Table} {fault : Fault} {policy : Policy} {settings : Settings}

/-! ### Steps that may fail -/

section Steps

variable {α β : Type} {step : Except Fault α} {next : α → Except Fault β}

theorem bind_eq_error_iff : step >>= next = .error fault ↔
    step = .error fault ∨ ∃ a, step = .ok a ∧ next a = .error fault := by
  cases step <;> simp [bind, Except.bind]

theorem bind_eq_ok_iff {b : β} :
    step >>= next = .ok b ↔ ∃ a, step = .ok a ∧ next a = .ok b := by
  cases step <;> simp [bind, Except.bind]

end Steps

/-! ### Reading a source -/

namespace Source

/-- A source is a file whose octets are a text. -/
def Holds (source : Source) (text : List Char) : Prop :=
  ∃ octets, source = .file octets ∧ Utf8.decode octets = .ok text

/-- A source is a file whose text spells a table. -/
def Spells (source : Source) (table : Toml.Table) : Prop :=
  ∃ text, source.Holds text ∧ Toml.parse (Newline.unify text) = .ok table

/-- A source is no file, or one whose text is no TOML. -/
def Idle (source : Source) : Prop :=
  ∀ octets, source = .file octets →
    ∃ text, Utf8.decode octets = .ok text ∧ Toml.parse (Newline.unify text) = .error .malformed

/-- What comes of reading a source. -/
inductive Reads (source : Source) : Except Fault Toml.Table → Prop
  /-- What is missing, a folder or no TOML sets nothing. -/
  | idle (h : source.Idle) : Reads source (.ok [])
  /-- A file that is TOML sets what it says. -/
  | spells {table : Toml.Table} (h : source.Spells table) : Reads source (.ok table)
  /-- Octets that are no UTF-8 are a fault. -/
  | notText {octets : List UInt8} {refusal : Utf8.Refusal} (hfile : source = .file octets)
      (hdecode : Utf8.decode octets = .error refusal) : Reads source (.error .notText)
  /-- So is an integer with too many digits, which is read no further. -/
  | integerTooLong {text : List Char} (htext : source.Holds text)
      (hparse : Toml.parse (Newline.unify text) = .error .integerTooLong) :
      Reads source (.error .integerTooLong)

/-- The table of a source that holds a text: reading the text decides, and a text that is no TOML
gives the empty table. -/
theorem table_of_holds {text : List Char} (h : source.Holds text) :
    source.table = match Toml.parse (Newline.unify text) with
      | .ok entries => .ok entries
      | .error .malformed => .ok []
      | .error .integerTooLong => .error .integerTooLong := by
  obtain ⟨octets, rfl, hdecode⟩ := h
  rw [Source.table, hdecode]
  rfl

/-- What is missing, is a folder or is no TOML counts as a table without entries. -/
theorem table_of_idle (h : source.Idle) : source.table = .ok [] := by
  cases source with
  | missing => rfl
  | folder => rfl
  | file octets =>
    obtain ⟨text, hdecode, hparse⟩ := h octets rfl
    rw [table_of_holds ⟨octets, rfl, hdecode⟩, hparse]

/-- What `Source.table` gives is one of the outcomes listed. The cases are those of the source, then
those of decoding and parsing. -/
theorem reads_table (source : Source) : source.Reads source.table := by
  cases source with
  | missing => exact .idle fun _ h ↦ (nomatch h)
  | folder => exact .idle fun _ h ↦ (nomatch h)
  | file octets =>
    cases hdecode : Utf8.decode octets with
    | error refusal =>
      rw [Source.table, hdecode]
      exact .notText rfl hdecode
    | ok text =>
      have htext : (Source.file octets).Holds text := ⟨octets, rfl, hdecode⟩
      rw [table_of_holds htext]
      cases hparse : Toml.parse (Newline.unify text) with
      | ok table => exact .spells ⟨text, htext, hparse⟩
      | error stop =>
        cases stop with
        | malformed =>
          refine .idle fun _ h ↦ ?_
          obtain rfl := Source.file.inj h
          exact ⟨text, hdecode, hparse⟩
        | integerTooLong => exact .integerTooLong htext hparse

/-- The outcomes listed exclude each other, so the one that holds is what `Source.table` gives: no
source that is read is idle, and no text spells two tables. -/
theorem table_eq_iff : source.table = result ↔ source.Reads result := by
  refine ⟨fun h ↦ h ▸ source.reads_table, fun h ↦ ?_⟩
  cases h with
  | idle h => exact table_of_idle h
  | spells h =>
    obtain ⟨text, htext, hparse⟩ := h
    rw [table_of_holds htext, hparse]
  | notText hfile hdecode =>
    rw [hfile, Source.table, hdecode]
    rfl
  | integerTooLong htext hparse => rw [table_of_holds htext, hparse]

end Source

/-! ### Single settings -/

/-- A table sets the entry of a section to a value. -/
def Sets (table : Toml.Table) (part name : String) (value : Toml.Value) : Prop :=
  ∃ entries, table.lookup part = some (.table entries) ∧ entries.lookup name = some value

/-- Looking up an entry in a section finds what the table sets, and nothing where the section is
missing or is no table. -/
theorem lookup?_eq_some_iff :
    lookup? ((table.lookup part).getD .null) name = some value ↔ Sets table part name value := by
  rw [Sets]
  cases table.lookup part with
  | none => simp [lookup?, Toml.Value.table?]
  | some section? => cases section? <;> simp [lookup?, Toml.Value.table?]

/-- The policies are told apart by their names. -/
theorem policyNamed?_text_eq_some_iff {word : String} :
    policyNamed? (.text word) = some policy ↔ Text.keyword word = policy.name := by
  rw [policyNamed?]
  refine ⟨fun h ↦ ?_, fun h ↦ ?_⟩
  · have hname := List.find?_some h
    exact (of_decide_eq_true hname).symm
  · rw [h]
    cases policy <;> rfl

/-- What comes of choosing the policy for conflicts. -/
inductive Chooses (table : Toml.Table) : Except Fault Policy → Prop
  /-- The standard policy stands in for one that is not set. -/
  | unset (h : ∀ value, Sets table "inference" "conflict_policy" value → value = .null) :
      Chooses table (.ok .union)
  /-- A policy is set by its name, without regard to blanks around it or to case. -/
  | named {word : String} {policy : Policy}
      (h : Sets table "inference" "conflict_policy" (.text word))
      (hname : Text.keyword word = policy.name) : Chooses table (.ok policy)
  /-- A value that is not the name of a policy is put into the complaint, in which an integer may be
  too long. -/
  | integerTooLong {value : Toml.Value} (h : Sets table "inference" "conflict_policy" value)
      (hlong : hasLongInteger value = true) : Chooses table (.error .integerTooLong)
  /-- Any other value is complained of. -/
  | unknown {value : Toml.Value} (h : Sets table "inference" "conflict_policy" value)
      (hnull : value ≠ .null) (hshort : hasLongInteger value = false)
      (hname : ∀ word, value = .text word → ∀ policy : Policy, Text.keyword word ≠ policy.name) :
      Chooses table (.error (.breach (.unknownPolicy value)))

/-- What `policyOf` gives is one of the outcomes listed: a value of any kind but a text is unknown,
as is a text that names no policy. -/
theorem chooses_policyOf (table : Toml.Table) :
    Chooses table (policyOf ((table.lookup "inference").getD .null)) := by
  rw [policyOf]
  split
  · next h =>
    refine .unset fun value hsets ↦ ?_
    rw [← lookup?_eq_some_iff, h] at hsets
    exact nomatch hsets
  · next h =>
    refine .unset fun value hsets ↦ ?_
    rw [← lookup?_eq_some_iff, h] at hsets
    exact (Option.some.inj hsets).symm
  · next value hnull h =>
    have hsets := lookup?_eq_some_iff.1 h
    split
    · next hlong => exact .integerTooLong hsets hlong
    · next hshort =>
      split
      · next policy hpolicy =>
        cases value with
        | text word => exact .named hsets (policyNamed?_text_eq_some_iff.1 hpolicy)
        | _ => exact nomatch hpolicy
      · next hpolicy =>
        refine .unknown hsets hnull (Bool.eq_false_iff.2 hshort) ?_
        rintro word rfl policy hname
        rw [policyNamed?_text_eq_some_iff.2 hname] at hpolicy
        exact nomatch hpolicy

/-- Where nothing is set, there is nothing to refuse. -/
theorem not_chooses_nil_error (fault : Fault) : ¬ Chooses [] (.error fault) := by
  have hnil (value : Toml.Value) : ¬ Sets [] "inference" "conflict_policy" value := by
    rintro ⟨entries, h, -⟩
    exact nomatch h
  intro h
  cases h with
  | integerTooLong h _ => exact hnil _ h
  | unknown h _ _ _ => exact hnil _ h

/-- Choosing the policy comes to exactly what `Chooses` lists. A policy that is set to no value
counts as not set, while a number, a truth value or a word of another spelling is refused. -/
theorem policyOf_eq_iff {result : Except Fault Policy} :
    policyOf ((table.lookup "inference").getD .null) = result ↔ Chooses table result := by
  refine ⟨fun h ↦ h ▸ chooses_policyOf table, fun h ↦ ?_⟩
  rw [policyOf]
  cases h with
  | unset h =>
    cases hset : lookup? ((table.lookup "inference").getD .null) "conflict_policy" with
    | none => rfl
    | some value =>
      obtain rfl := h value (lookup?_eq_some_iff.1 hset)
      rfl
  | named h hname =>
    rw [lookup?_eq_some_iff.2 h]
    simp only [hasLongInteger, policyNamed?_text_eq_some_iff.2 hname, Bool.false_eq_true, if_false]
    rfl
  | @integerTooLong value h hlong =>
    have hnull : value ≠ .null := by
      rintro rfl
      exact nomatch hlong
    rw [lookup?_eq_some_iff.2 h]
    simp only [hlong, if_true]
    rfl
  | @unknown value h hnull hshort hname =>
    -- only a text can name a policy
    have hpolicy : policyNamed? value = none := by
      cases value with
      | text word =>
        refine Option.eq_none_iff_forall_ne_some.2 fun policy hpolicy ↦ ?_
        exact hname word rfl policy (policyNamed?_text_eq_some_iff.1 hpolicy)
      | _ => rfl
    rw [lookup?_eq_some_iff.2 h]
    simp only [hshort, hpolicy, Bool.false_eq_true, if_false]
    rfl

/-- The module of all aliases has a name whatever is configured, since blanks alone do not count as
one. -/
theorem commonFileOf_ne_empty (render : Toml.Value) : commonFileOf render ≠ "" := by
  rw [commonFileOf]
  split
  · next word _ =>
    simp only
    split
    · decide
    · next hname => exact fun h ↦ hname (String.isEmpty_iff.2 h)
  · decide

/-- Only a text that is more than blanks changes the name of the module. -/
theorem commonFileOf_eq_standard {render : Toml.Value}
    (h : ∀ word, lookup? render "common_file" = some (.text word) → Text.trim word = "") :
    commonFileOf render = Style.standard.commonFile := by
  rw [commonFileOf]
  split
  · next word hword =>
    rw [h word hword]
    rfl
  · rfl

/-- Values of any other kind than those listed leave a choice between yes and no as it is. -/
theorem truthOf_eq_standard {standard : Bool} (hbool : ∀ b, value ≠ .bool b)
    (hint : ∀ n, value ≠ .int n) (htext : ∀ word, value ≠ .text word) :
    truthOf standard value = standard := by
  cases value with
  | bool b => exact absurd rfl (hbool b)
  | int n => exact absurd rfl (hint n)
  | text word => exact absurd rfl (htext word)
  | _ => rfl

/-- Only a text changes the stem of aliases. -/
theorem stemOf_eq_standard {render : Toml.Value}
    (h : ∀ word, lookup? render "alias_prefix" ≠ some (.text word)) :
    stemOf render = Style.standard.stem := by
  rw [stemOf]
  split
  · next word hword => exact absurd hword (h word)
  · rfl

/-! ### A whole configuration -/

/-- Settings have the policy that a table chooses, and each of the others has its standard value
unless the table sets it to a value of the kind expected. -/
structure Follows (settings : Settings) (table : Toml.Table) : Prop where
  policy : Chooses table (.ok settings.policy)
  stem : (∀ word, ¬ Sets table "render" "alias_prefix" (.text word)) →
    settings.style.stem = Style.standard.stem
  commonFile : (∀ word, Sets table "render" "common_file" (.text word) → Text.trim word = "") →
    settings.style.commonFile = Style.standard.commonFile
  expand : (∀ b, ¬ Sets table "render" "compute_helper" (.bool b)) →
    (∀ n, ¬ Sets table "render" "compute_helper" (.int n)) →
    (∀ word, ¬ Sets table "render" "compute_helper" (.text word)) →
    settings.style.expand = Style.standard.expand

/-- A table is refused for its policy or not at all. -/
theorem ofTable_eq_error_iff : ofTable table = .error fault ↔ Chooses table (.error fault) := by
  rw [← policyOf_eq_iff]
  refine bind_eq_error_iff.trans (or_iff_left ?_)
  rintro ⟨policy, -, h⟩
  exact nomatch h

-- a policy of another kind is refused, not taken for one that is not set
example : ofTable [("inference", .table [("conflict_policy", .bool true)]), ("render", .null)] =
    .error (.breach (.unknownPolicy (.bool true))) := rfl

/-- Settings are made of a table exactly if it chooses their policy and their style is the one found
under `render`. This is all that a table decides. -/
theorem ofTable_eq_ok_iff : ofTable table = .ok settings ↔
    let render := (table.lookup "render").getD .null
    Chooses table (.ok settings.policy) ∧ settings.style = ⟨stemOf render, commonFileOf render,
      truthOf Style.standard.expand ((lookup? render "compute_helper").getD .null)⟩ := by
  rw [← policyOf_eq_iff]
  refine bind_eq_ok_iff.trans ⟨?_, ?_⟩
  · rintro ⟨policy, hpolicy, h⟩
    obtain rfl := Except.ok.inj h
    exact ⟨hpolicy, rfl⟩
  · obtain ⟨policy, style⟩ := settings
    rintro ⟨hpolicy, rfl⟩
    exact ⟨policy, hpolicy, rfl⟩

/-- What is set to a value of the kind expected is found as such, and nothing else is. -/
theorem lookup?_getD_null_ne (hnull : value ≠ .null) (h : ¬ Sets table part name value) :
    (lookup? ((table.lookup part).getD .null) name).getD .null ≠ value := by
  rintro rfl
  rw [← lookup?_eq_some_iff] at h
  cases hset : lookup? ((table.lookup part).getD .null) name with
  | none => exact hnull (hset ▸ rfl)
  | some _ => exact h (hset ▸ rfl)

/-- Settings made of a table follow it: what the table does not set, or sets to a value of another
kind, is standard. -/
theorem follows_of_ofTable (h : ofTable table = .ok settings) : settings.Follows table := by
  obtain ⟨hpolicy, hstyle⟩ := ofTable_eq_ok_iff.1 h
  constructor
  · exact hpolicy
  · intro hstem
    rw [hstyle]
    exact stemOf_eq_standard fun word hword ↦ hstem word (lookup?_eq_some_iff.1 hword)
  · intro hfile
    rw [hstyle]
    exact commonFileOf_eq_standard fun word hword ↦ hfile word (lookup?_eq_some_iff.1 hword)
  · intro hbool hint htext
    rw [hstyle]
    exact truthOf_eq_standard (fun b ↦ lookup?_getD_null_ne nofun (hbool b))
      (fun n ↦ lookup?_getD_null_ne nofun (hint n))
      fun word ↦ lookup?_getD_null_ne nofun (htext word)

/-- A configuration is refused as it is read, or for the policy that its table chooses. -/
theorem load_eq_error_iff : load source = .error fault ↔ source.Reads (.error fault) ∨
    ∃ table, source.Spells table ∧ Chooses table (.error fault) := by
  rw [load, bind_eq_error_iff]
  simp only [Source.table_eq_iff, ofTable_eq_error_iff]
  refine or_congr_right (exists_congr fun table ↦ and_congr_left fun hchooses ↦ ?_)
  refine ⟨fun hreads ↦ ?_, .spells⟩
  cases hreads with
  | idle => exact absurd hchooses (not_chooses_nil_error fault)
  | spells h => exact h

/-- Without a configuration the settings are the standard ones. -/
theorem load_of_idle (h : source.Idle) : load source = .ok .standard := by
  rw [load, Source.table_eq_iff.2 (.idle h)]
  rfl

/-- The settings made of a table are those of no other. -/
theorem ofTable_of_load (hload : load source = .ok settings) (h : source.Spells table) :
    ofTable table = .ok settings := by
  rwa [load, Source.table_eq_iff.2 (.spells h)] at hload

/-- Whatever is found in place of a configuration, settings are made of it unless it cannot be read
or its policy cannot be chosen. A breach is only ever the policy: the configuration spells a table
with a section for inference that sets the policy to something else than the name of one. What is no
file or no TOML makes the standard settings, and a table makes the standard settings but for what it
sets to a value of the kind expected. The stem of aliases is always an identifier, and the module of
all aliases always has a name. -/
theorem load_exact (source : Source) :
    (∀ fault, load source = .error fault ↔ source.Reads (.error fault) ∨
      ∃ table, source.Spells table ∧ Chooses table (.error fault)) ∧
    (∀ breach, load source = .error (.breach breach) ↔
      ∃ table value, source.Spells table ∧ Sets table "inference" "conflict_policy" value ∧
        value ≠ .null ∧ hasLongInteger value = false ∧
        (∀ word, value = .text word →
          Text.keyword word ≠ "union" ∧ Text.keyword word ≠ "unknown") ∧
        breach = .unknownPolicy value) ∧
    (source.Idle → load source = .ok .standard) ∧
    ∀ settings, load source = .ok settings →
      (∀ table, source.Spells table → settings.Follows table) ∧
      Identifier.isIdentifier settings.style.stem.toList = true ∧
      settings.style.commonFile ≠ "" := by
  refine ⟨fun fault ↦ load_eq_error_iff, fun breach ↦ ?_, load_of_idle, fun settings h ↦ ⟨?_, ?_⟩⟩
  · rw [load_eq_error_iff]
    constructor
    · rintro (h | ⟨table, hspells, hchooses⟩)
      · exact nomatch h
      · cases hchooses with
        | @unknown value hsets hnull hshort hname =>
          refine ⟨table, value, hspells, hsets, hnull, hshort, fun word hword ↦ ?_, rfl⟩
          exact ⟨hname word hword .union, hname word hword .unknown⟩
    · rintro ⟨table, value, hspells, hsets, hnull, hshort, hname, rfl⟩
      refine .inr ⟨table, hspells, .unknown hsets hnull hshort fun word hword policy ↦ ?_⟩
      cases policy with
      | union => exact (hname word hword).1
      | unknown => exact (hname word hword).2
  · exact fun table hspells ↦ follows_of_ofTable (ofTable_of_load h hspells)
  · obtain ⟨table, -, hmade⟩ := bind_eq_ok_iff.1 h
    rw [(ofTable_eq_ok_iff.1 hmade).2]
    exact ⟨Identifier.isIdentifier_stem _, commonFileOf_ne_empty _⟩

/-- The octet FF, with which no text begins, is refused, and not as a breach. -/
theorem load_no_text : load (.file [0xff]) = .error .notText :=
  rfl

end JsonShapes.Settings
