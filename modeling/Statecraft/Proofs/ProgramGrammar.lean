import Statecraft.Proofs.BlockGrammar

/-! Programs are read by their grammar. A source without stray characters is accepted
if and only if its tokens are a sequence of definitions, and the definitions returned
are the trees of this sequence. Nothing malformed slips through where a rule recovers or where a
list forgives the end of the source. -/
namespace Statecraft.Source

open Phrase (Sequence Separated)

/-- attribute = "[" identifier string "]" -/
inductive AttributePhrase : Phrase Attribute where
  | brackets {opening label value closing : Token} {content : String}
      (opens : opening.kind = .openBracket) (labels : label.kind = .identifier)
      (string : value.kind = .string) (quotes : value.text = "'" ++ content ++ "'")
      (closes : closing.kind = .closeBracket) :
      AttributePhrase [opening, label, value, closing]
        ⟨⟨label.text, label.span⟩, content, value.span⟩

/-- entry = attribute* identifier -/
inductive EntryPhrase : Phrase StateEntry where
  | labelled {used : List Token} {label : Token} {attributes : List Attribute}
      (annotates : Sequence AttributePhrase used attributes) (labels : label.kind = .identifier) :
      EntryPhrase (used ++ [label]) ⟨⟨label.text, label.span⟩, attributes⟩

inductive DefinitionPhrase : Phrase Definition where
  -- "state" "{" entries "}"
  | states {keyword opening closing : Token} {used : List Token} {entries : List StateEntry}
      (lists : keyword.kind = .stateWord) (opens : opening.kind = .openBrace)
      (enters : Separated .comma EntryPhrase used entries) (closes : closing.kind = .closeBrace) :
      DefinitionPhrase (keyword :: opening :: (used ++ [closing]))
        (.states ⟨keyword.span, entries, closing.span⟩)
  -- ("const" | "let") identifier ":=" or ";"
  | declaration {keyword target assign stop : Token} {used : List Token} {value : Expr}
      {storage : Storage}
      (stores : (keyword.kind, storage) ∈ [(TokenKind.constWord, Storage.fixed),
        (.letWord, .assignable)])
      (names : target.kind = .identifier) (assigns : assign.kind = .assign)
      (derives : Derives .or used value) (stops : stop.kind = .semicolon) :
      DefinitionPhrase (keyword :: target :: assign :: (used ++ [stop]))
        (.declaration ⟨storage, keyword.span, ⟨target.text, target.span⟩, value⟩)
  -- "when" identifier block
  | whenBlock {keyword state : Token} {used : List Token} {body : Block}
      (starts : keyword.kind = .whenWord) (names : state.kind = .identifier)
      (encloses : BlockPhrase used body) :
      DefinitionPhrase (keyword :: state :: used)
        (.whenBlock ⟨keyword.span, ⟨state.text, state.span⟩, body⟩)

namespace Grammar

open Judge (Exact token_opens token_consumes)

variable {rules : ∀ {γ : Type}, Rule γ → Judge γ} {loops bound : Nat} (Ends : List Token → Prop)

theorem annotated_exact :
    (annotated.judgeWith rules loops).Exact bound Ends AttributePhrase := by
  refine ((Exact.afterToken fun _ => ((name_exact fun _ => True).bind (fun label =>
    (Exact.token bound (fun _ => True) .string).map) fun _ _ => trivial).bind (fun _ =>
    (Exact.token bound Ends .closeBracket).map) fun _ _ => trivial).mono
    (Nat.le_succ bound)).congrSpelt ?_ ?_
  · rintro _ _ ⟨opens, labels, string, quotes, closes⟩
    refine ⟨_, _, rfl, opens, _, _, _, rfl, ⟨_, _, _, rfl, ⟨_, rfl, rfl, labels⟩, _, ?_, rfl, string⟩,
      _, rfl, rfl, closes⟩
    rw [unquoted_of_quotes quotes]
    rfl
  · rintro _ _ scanned ⟨opening, _, rfl, opens, _, _, _, rfl, ⟨_, _, _, rfl, ⟨label, rfl, rfl, labels⟩,
      value, rfl, rfl, string⟩, closing, rfl, rfl, closes⟩
    obtain ⟨content, quotes⟩ := (scanned value (by simp)).string string
    rw [unquoted_of_quotes quotes]
    exact .brackets opens labels string quotes closes

theorem stateEntry_exact (calls : Calls bound rules) (enough : bound ≤ loops) :
    (stateEntry.judgeWith rules loops).Exact bound Ends EntryPhrase := by
  have consumes : (annotated.judgeWith rules loops).Consumes :=
    bind_consumes calls (token_consumes .openBracket)
  have many : ((Parser.many annotated).judgeWith rules loops).Exact bound (Avoids [.openBracket])
      (Sequence AttributePhrase) := by
    refine (annotated_exact fun _ => True).many consumes ?_ (fun _ => trivial) enough
    intro after avoids
    refine ⟨trivial, .inr ?_⟩
    exact (token_opens (after.length + 1) .openBracket).bind (Nat.lt_succ_self _) avoids
  refine (many.bind (fun attributes => (name_exact Ends).map) ?_).congr ?_
  · rintro attributes _ _ after ⟨_, -, label, rfl, rfl, labels⟩ _
    simp [labels]
  · intro used entry
    constructor
    · rintro ⟨front, attributes, _, rfl, annotates, _, rfl, label, rfl, rfl, labels⟩
      exact .labelled annotates labels
    · rintro ⟨annotates, labels⟩
      exact ⟨_, _, _, rfl, annotates, _, rfl, _, rfl, rfl, labels⟩

theorem stateEntry_opens (positive : 0 < loops) :
    (stateEntry.judgeWith rules loops).Opens bound [.openBracket, .identifier] := by
  intro tokens short avoids
  have refused : annotated.judgeWith rules loops tokens = .fails tokens tokens :=
    (token_opens bound .openBracket).bind short (avoids.anti (by simp))
  have unnamed : name.judgeWith rules loops tokens = .fails tokens tokens :=
    (token_opens bound .identifier).bind short (avoids.anti (by simp))
  have none : Parser.judgeMany (annotated.judgeWith rules loops) loops tokens = .reads [] tokens := by
    obtain ⟨loops, rfl⟩ := Nat.exists_eq_succ_of_ne_zero (Nat.ne_of_gt positive)
    cases tokens with
    | nil => rfl
    | cons t rest => simp [Parser.judgeMany, refused]
  simp only [stateEntry, Parser.map, Parser.judgeWith, none, Verdict.andThen, unnamed]

theorem stateList_exact (calls : Calls bound rules) (enough : bound ≤ loops)
    (positive : 0 < loops) :
    (stateList.judgeWith rules loops).Exact bound Ends fun used definition =>
      ∃ keyword opening inside closing entries, used = keyword :: opening :: (inside ++ [closing]) ∧
        definition = .states ⟨keyword.span, entries, closing.span⟩ ∧ keyword.kind = .stateWord ∧
        opening.kind = .openBrace ∧ Separated .comma EntryPhrase inside entries ∧
        closing.kind = .closeBrace := by
  have entries : ((Parser.separated stateEntry (.token .comma)).judgeWith rules loops).Exact bound
      (fun after => ∃ t rest, after = t :: rest ∧ t.kind = .closeBrace)
      (Separated .comma EntryPhrase) := by
    refine (stateEntry_exact (fun _ => True) calls enough).separated (fun _ => trivial) ?_ enough
    rintro _ ⟨t, rest, rfl, kind⟩
    refine ⟨by simp, by simp [kind], trivial, ?_⟩
    exact stateEntry_opens positive (Nat.lt_succ_self _) (by simp [kind])
  have braced : ((((Parser.token .openBrace).andThen (Parser.separated stateEntry
      (.token .comma))) : Parser Rule _).judgeWith rules loops).Exact bound
      (fun after => ∃ t rest, after = t :: rest ∧ t.kind = .closeBrace) _ :=
    (Exact.afterToken fun _ => entries).mono (Nat.le_succ bound)
  refine ((Exact.afterToken fun keyword => braced.bind (fun states =>
    (Exact.token bound Ends .closeBrace).map) ?_).mono (Nat.le_succ bound)).congr ?_
  · rintro states _ _ after ⟨closing, rfl, rfl, closes⟩ _
    exact ⟨closing, after, rfl, closes⟩
  · intro used definition
    constructor
    · rintro ⟨keyword, _, rfl, lists, _, entries, _, rfl, ⟨opening, inside, rfl, opens, enters⟩,
        closing, rfl, rfl, closes⟩
      exact ⟨keyword, opening, inside, closing, entries, rfl, rfl, lists, opens, enters, closes⟩
    · rintro ⟨keyword, opening, inside, closing, entries, rfl, rfl, lists, opens, enters, closes⟩
      exact ⟨keyword, _, rfl, lists, _, entries, _, rfl, ⟨opening, inside, rfl, opens, enters⟩,
        closing, rfl, rfl, closes⟩

theorem declaration_exact (calls : Calls bound rules) (kind : TokenKind) (storage : Storage) :
    ((declaration kind storage).judgeWith rules loops).Exact bound Ends fun used definition =>
      ∃ keyword target assign inside stop value,
        used = keyword :: target :: assign :: (inside ++ [stop]) ∧
        definition = .declaration ⟨storage, keyword.span, .ofToken target, value⟩ ∧
        keyword.kind = kind ∧ target.kind = .identifier ∧ assign.kind = .assign ∧
        Derives .or inside value ∧ stop.kind = .semicolon := by
  refine ((Exact.afterToken fun keyword => (assigned_exact fun _ => True).bind (fun target =>
    (statementValue_exact Ends calls).map) fun _ _ => trivial).mono (Nat.le_succ bound)).congr ?_
  intro used definition
  constructor
  · rintro ⟨keyword, _, rfl, stores, _, _, _, rfl, ⟨target, assign, rfl, rfl, names, assigns⟩, value,
      rfl, inside, stop, rfl, derives, stops⟩
    exact ⟨keyword, target, assign, inside, stop, value, rfl, rfl, stores, names, assigns, derives,
      stops⟩
  · rintro ⟨keyword, target, assign, inside, stop, value, rfl, rfl, stores, names, assigns, derives,
      stops⟩
    exact ⟨keyword, _, rfl, stores, _, _, _, rfl, ⟨target, assign, rfl, rfl, names, assigns⟩, value,
      rfl, inside, stop, rfl, derives, stops⟩

theorem whenBlock_exact (calls : Calls bound rules) :
    (whenBlock.judgeWith rules loops).Exact bound (fun _ => True) fun used definition =>
      ∃ keyword state inside body, used = keyword :: state :: inside ∧
        definition = .whenBlock ⟨keyword.span, .ofToken state, body⟩ ∧ keyword.kind = .whenWord ∧
        state.kind = .identifier ∧ BlockPhrase inside body := by
  refine ((Exact.afterToken fun keyword => (name_exact fun _ => True).bind (fun state =>
    calls.block.map) fun _ _ => trivial).mono (Nat.le_succ bound)).congr ?_
  intro used definition
  constructor
  · rintro ⟨keyword, _, rfl, starts, _, _, inside, rfl, ⟨state, rfl, rfl, names⟩, body, rfl, encloses⟩
    exact ⟨keyword, state, inside, body, rfl, rfl, starts, names, encloses⟩
  · rintro ⟨keyword, state, inside, body, rfl, rfl, starts, names, encloses⟩
    exact ⟨keyword, _, rfl, starts, _, _, inside, rfl, ⟨state, rfl, rfl, names⟩, body, rfl, encloses⟩

theorem definition_exact (calls : Calls bound rules) (enough : bound ≤ loops)
    (positive : 0 < loops) :
    (definition.judgeWith rules loops).Exact bound (fun _ => True) DefinitionPhrase := by
  have lists : (stateList.judgeWith rules loops).Opens bound [.stateWord] :=
    (token_opens bound .stateWord).bind
  have declares (kind : TokenKind) (storage : Storage) :
      ((declaration kind storage).judgeWith rules loops).Opens bound [kind] :=
    (token_opens bound kind).bind
  refine ((((stateList_exact _ calls enough positive).orElse lists
    (declaration_exact _ calls .constWord .fixed) ?_).orElse (lists.orElse (declares _ _))
    (declaration_exact _ calls .letWord .assignable) ?_).orElse
    ((lists.orElse (declares _ _)).orElse (declares _ _)) (whenBlock_exact calls) ?_).congr ?_
  · rintro used value after ⟨keyword, target, assign, inside, stop, value, rfl, rfl, kind, -⟩ _
    simp [kind]
  · rintro used value after ⟨keyword, target, assign, inside, stop, value, rfl, rfl, kind, -⟩ _
    simp [kind]
  · rintro used value after ⟨keyword, state, inside, body, rfl, rfl, kind, -⟩ _
    simp [kind]
  · intro used value
    constructor
    · rintro (((⟨keyword, opening, inside, closing, entries, rfl, rfl, lists, opens, enters, closes⟩ |
        ⟨keyword, target, assign, inside, stop, value, rfl, rfl, stores, names, assigns, derives,
          stops⟩) |
        ⟨keyword, target, assign, inside, stop, value, rfl, rfl, stores, names, assigns, derives,
          stops⟩) |
        ⟨keyword, state, inside, body, rfl, rfl, starts, names, encloses⟩)
      · exact .states lists opens enters closes
      · exact .declaration (by simp [stores]) names assigns derives stops
      · exact .declaration (by simp [stores]) names assigns derives stops
      · exact .whenBlock starts names encloses
    · intro defines
      cases defines with
      | states lists opens enters closes =>
        exact .inl (.inl (.inl ⟨_, _, _, _, _, rfl, rfl, lists, opens, enters, closes⟩))
      | declaration stores names assigns derives stops =>
        simp only [List.mem_cons, Prod.mk.injEq, List.not_mem_nil, or_false] at stores
        rcases stores with ⟨stores, rfl⟩ | ⟨stores, rfl⟩
        · exact .inl (.inl (.inr ⟨_, _, _, _, _, _, rfl, rfl, stores, names, assigns, derives, stops⟩))
        · exact .inl (.inr ⟨_, _, _, _, _, _, rfl, rfl, stores, names, assigns, derives, stops⟩)
      | whenBlock starts names encloses => exact .inr ⟨_, _, _, _, rfl, rfl, starts, names, encloses⟩

theorem program_exact (calls : Calls bound rules) (enough : bound ≤ loops) (positive : 0 < loops) :
    (program.judgeWith rules loops).Exact bound (· = []) (Sequence DefinitionPhrase) := by
  have declares (kind : TokenKind) (storage : Storage) :
      ((declaration kind storage).judgeWith rules loops).Consumes :=
    bind_consumes calls (token_consumes kind)
  have consumes : (definition.judgeWith rules loops).Consumes :=
    orElse_consumes calls (orElse_consumes calls (orElse_consumes calls
      (bind_consumes calls (token_consumes .stateWord)) (declares _ _)) (declares _ _))
      (bind_consumes calls (token_consumes .whenWord))
  have recovered : (recoveredDefinition.judgeWith rules loops).Exact bound (fun _ => True)
      fun used option => ∃ definition, option = some definition ∧ DefinitionPhrase used definition :=
    (definition_exact calls enough positive).map.recover
  refine (recovered.many (bind_consumes calls consumes).recover (fun none => ⟨trivial, .inl none⟩)
    (fun _ => trivial) enough).map.congr ?_
  intro used definitions
  constructor
  · rintro ⟨options, rfl, defines⟩
    obtain ⟨definitions, rfl, sequence⟩ := Phrase.sequence_some_iff.mp defines
    simpa using sequence
  · intro defines
    exact ⟨definitions.map some, by simp, Phrase.sequence_some_iff.mpr ⟨_, rfl, defines⟩⟩

end Grammar

theorem entry_fits {used : List Token} {entry : StateEntry} (enters : EntryPhrase used entry) :
    ∀ t ∈ used, t.Fits := by
  have annotated {front : List Token} {attributes : List Attribute}
      (annotates : Sequence AttributePhrase front attributes) : ∀ t ∈ front, t.Fits := by
    induction annotates with
    | nil => simp
    | cons first others ih =>
      obtain ⟨opens, labels, string, -, closes⟩ := first
      simpa [Token.fits_of_ne, opens, labels, string, closes] using ih
  obtain ⟨annotates, labels⟩ := enters
  simpa [Token.fits_of_ne, labels, or_imp, forall_and] using annotated annotates

theorem entries_fit {used : List Token} {entries : List StateEntry}
    (enters : Separated .comma EntryPhrase used entries) : ∀ t ∈ used, t.Fits := by
  induction enters with
  | nil => simp
  | last only => exact entry_fits only
  | cons first delimiter others ih =>
    rw [List.forall_mem_append, List.forall_mem_cons]
    exact ⟨entry_fits first, Token.fits_of_ne (by simp [delimiter]), ih⟩

theorem definition_complete_iff {used : List Token} {d : Definition}
    (defines : DefinitionPhrase used d) : d.Complete ↔ ∀ t ∈ used, t.Fits := by
  cases defines with
  | states lists opens enters closes =>
    simpa [Definition.Complete, Token.fits_of_ne, lists, opens, closes, or_imp, forall_and] using
      entries_fit enters
  | declaration stores names assigns derives stops =>
    have keyword := ne_of_mem_of_not_mem (List.mem_map_of_mem (f := Prod.fst) stores)
      (by decide : TokenKind.number ∉ _)
    simp [Definition.Complete, derives.complete_iff, Token.fits_of_ne, keyword, names, assigns,
      stops, or_imp, forall_and]
  | whenBlock starts names encloses =>
    simp [Definition.Complete, block_complete_iff _ encloses, Token.fits_of_ne, starts, names]

theorem program_complete_iff {used : List Token} {program : Program}
    (defines : Sequence DefinitionPhrase used program) :
    program.Complete ↔ ∀ t ∈ used, t.Fits := by
  induction defines with
  | nil => simp [Program.Complete]
  | cons first others ih =>
    rw [Program.Complete, List.forall_mem_cons, definition_complete_iff first, ← Program.Complete,
      ih, List.forall_mem_append]

/-- A source without stray characters is accepted if and only if its tokens are
definitions one after the other; the program returned is then these definitions. No expression has
a missing part if and only if every number of the source is one that a double is near. -/
theorem parse_iff (source : String) (clean : ∀ x ∈ Lexeme.scan source, x.stray? = none) :
    ((parse source).reports = [] ↔
        ∃ program, Sequence DefinitionPhrase (significantTokens source) program) ∧
      ∀ program : Program, Sequence DefinitionPhrase (significantTokens source) program →
        (parse source).value = program ∧
          (program.Complete ↔ ∀ t ∈ significantTokens source, t.Fits) := by
  have enough : (significantTokens source).length < Grammar.fuel (Lexeme.scan source) :=
    Nat.lt_succ_self _
  have exact : (Statecraft.Grammar.judge Grammar.rules (Grammar.fuel (Lexeme.scan source))
      Grammar.program).Exact _ (· = []) (Sequence DefinitionPhrase) :=
    Grammar.program_exact (Grammar.rules_called (Nat.le_refl _)) (Nat.le_refl _)
      (Nat.zero_lt_of_lt enough)
  obtain ⟨accepts, returns⟩ := Statecraft.Grammar.parse_exact clean exact enough rfl
  refine ⟨accepts, ?_⟩
  intro program defines
  refine ⟨?_, program_complete_iff defines⟩
  simp only [parse, returns program defines, Option.getD_some]

/-- Every kind of definition, with a trailing comma and blocks inside a block. -/
def everyPhrase : String :=
  "state\x7b[k 'v']A,\x7dlet x:=1 or b;when A\x7b\x7bassert x;\x7dif a\x7b\x7delse\x7bstate:=A;\x7d\x7d"

theorem parse_iff_everyPhrase :
    (∀ x ∈ Lexeme.scan everyPhrase, x.stray? = none) ∧ (parse everyPhrase).reports = [] ∧
      (parse everyPhrase).value.Complete ∧
      Sequence DefinitionPhrase (significantTokens everyPhrase) (parse everyPhrase).value := by
  have clean : ∀ x ∈ Lexeme.scan everyPhrase, x.stray? = none := by decide +kernel
  have silent : (parse everyPhrase).reports = [] := by decide +kernel
  have readable : ∀ t ∈ significantTokens everyPhrase, t.kind = .number →
      (Double.ofLiteral? t.text).isSome = true := by decide +kernel
  have fits : ∀ t ∈ significantTokens everyPhrase, t.Fits := by
    intro t member kind
    obtain ⟨x, read⟩ := Option.isSome_iff_exists.mp (readable t member kind)
    exact ⟨x, ((significantTokens_spelt everyPhrase t member).number kind).denotes read⟩
  obtain ⟨accepts, returns⟩ := parse_iff everyPhrase clean
  obtain ⟨program, defines⟩ := accepts.mp silent
  obtain ⟨same, complete⟩ := returns program defines
  rw [same]
  exact ⟨clean, silent, complete.mpr fits, defines⟩

end Statecraft.Source
