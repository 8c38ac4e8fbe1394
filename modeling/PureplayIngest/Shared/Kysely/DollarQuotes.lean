import PureplayIngest.Shared.Kysely.MigrationRunner

/-!
Dollar-quoted blocks, with a tag and without.

The loop knows `$$` only. The delimiters of a tagged block are characters of
the statement to it, and what stands between them is read as any other text:
a semicolon ends the statement, a comment is dropped, and a quote opens a
literal. A block without a tag is taken as it is, wherever it stands.
-/

namespace PureplayIngest.Shared.Kysely

open Lib

/-- A tag is empty, or an identifier without a dollar sign. -/
def IsTag (tag : List Char) : Prop :=
  (∀ ch ∈ tag, ch.isAlphanum = true ∨ ch = '_' ∨ 0x80 ≤ ch.toNat) ∧
    ∀ ch ∈ tag.head?, ch.isDigit = false

-- Going through the tag, not through all characters there are.
instance (tag : List Char) : Decidable (IsTag tag) :=
  @instDecidableAnd _ _ (List.decidableBAll _ tag) (Option.decidableForallMem tag.head?)

def delimiter (tag : List Char) : List Char := '$' :: (tag ++ ['$'])

def dollarQuoted (tag body : List Char) : List Char := delimiter tag ++ body ++ delimiter tag

/-- After the body the delimiter occurs for the first time. -/
def EndsAtDelimiter (tag body : List Char) : Prop :=
  ¬ delimiter tag <:+: (body ++ delimiter tag).dropLast

instance (tag body : List Char) : Decidable (EndsAtDelimiter tag body) :=
  inferInstanceAs (Decidable (¬ _))

/-- After the text the loop is outside literals, blocks and comments: a dollar
sign there, and what follows it, is read as by itself. -/
def Outside (before : List Char) : Prop :=
  ∀ s, lex .plain (before ++ '$' :: s) = lex .plain before ++ lex .plain ('$' :: s)

/-- The block is characters of its statement, and nothing else. The text
around it is read as by itself. -/
def Opaque (before block after : List Char) : Prop :=
  splitStatements (String.ofList (before ++ (block ++ after))) =
    (statementsFrom [] (lex .plain before ++ (block.map .char ++ lex .plain after))).map
      String.ofList

instance (before block after : List Char) : Decidable (Opaque before block after) :=
  inferInstanceAs (Decidable (_ = _))

/-- Read as any other text, nothing in the block ends the statement or is
dropped, and what it opens it closes. -/
def ReadsAsText (block : List Char) : Prop :=
  ∀ s, s.head? ≠ some '$' → lex .plain (block ++ s) = block.map .char ++ lex .plain s

/-! ### The part of a text that is read first -/

def Lexeme.char? : Lexeme → Option Char
  | .char ch => some ch
  | .comment => none
  | .terminator => none

def charsOf (lexemes : List Lexeme) : List Char := lexemes.filterMap Lexeme.char?

/-- The text is read as these lexemes and leads to the second context, whatever follows. -/
structure Reading (context : Context) (text : List Char) (lexemes : List Lexeme)
    (context' : Context) : Prop where
  lex : ∀ s, lex context (text ++ s) = lexemes ++ lex context' s
  length : lexemes.length ≤ text.length
  chars : (charsOf lexemes).Sublist text

section Reading

variable {context context' : Context} {text rest : List Char} {lexemes : List Lexeme} {ch c : Char}

/-- The characters of which the loop looks at two. -/
def Doubles (ch : Char) : Prop := ch = '$' ∨ ch = '\'' ∨ ch = '-'

theorem head_append_ne (hnext : ∀ s', rest = c :: s' → False) (hrest : rest ≠ [])
    (s : List Char) : (rest ++ s).head? ≠ some c := by
  cases rest with
  | nil => exact absurd rfl hrest
  | cons d rest =>
      intro heq
      obtain rfl : d = c := Option.some.inj heq
      exact hnext rest rfl

theorem ne_nil_of_doubles (hlast : ∀ c ∈ (ch :: rest).getLast?, ¬ Doubles c)
    (hch : Doubles ch) :
    rest ≠ [] := by
  rintro rfl
  exact hlast ch rfl hch

theorem last_cons (hlast : ∀ c ∈ (ch :: rest).getLast?, ¬ Doubles c) :
    ∀ c ∈ rest.getLast?, ¬ Doubles c := by
  intro c hc
  refine hlast c ?_
  rw [List.getLast?_cons, Option.mem_def.mp hc]
  rfl

theorem Reading.char {context₀ : Context} (h : Reading context rest lexemes context')
    (hlex : ∀ s, Kysely.lex context₀ (ch :: (rest ++ s)) =
      .char ch :: Kysely.lex context (rest ++ s)) :
    Reading context₀ (ch :: rest) (.char ch :: lexemes) context' where
  lex s := by rw [List.cons_append, hlex, h.lex, List.cons_append]
  length := Nat.succ_le_succ h.length
  chars := h.chars.cons_cons ch

theorem Reading.pair {context₀ : Context} {d : Char}
    (h : Reading context rest lexemes context')
    (hlex : ∀ s, Kysely.lex context₀ (ch :: d :: (rest ++ s)) =
      .char ch :: .char d :: Kysely.lex context (rest ++ s)) :
    Reading context₀ (ch :: d :: rest) (.char ch :: .char d :: lexemes) context' where
  lex s := by
    rw [List.cons_append, List.cons_append, hlex, h.lex, List.cons_append, List.cons_append]
  length := Nat.succ_le_succ (Nat.succ_le_succ h.length)
  chars := (h.chars.cons_cons d).cons_cons ch

/-- The character ends a comment or the statement. -/
theorem Reading.mark {context₀ : Context} {lexeme : Lexeme}
    (h : Reading context rest lexemes context') (hmark : lexeme.char? = none)
    (hlex : ∀ s, Kysely.lex context₀ (ch :: (rest ++ s)) =
      lexeme :: Kysely.lex context (rest ++ s)) :
    Reading context₀ (ch :: rest) (lexeme :: lexemes) context' where
  lex s := by rw [List.cons_append, hlex, h.lex, List.cons_append]
  length := Nat.succ_le_succ h.length
  chars := by
    rw [charsOf, List.filterMap_cons_none hmark]
    exact h.chars.cons ch

/-- The character is part of a comment. -/
theorem Reading.skip {context₀ : Context} (h : Reading context rest lexemes context')
    (hlex : ∀ s, Kysely.lex context₀ (ch :: (rest ++ s)) = Kysely.lex context (rest ++ s)) :
    Reading context₀ (ch :: rest) lexemes context' where
  lex s := by rw [List.cons_append, hlex, h.lex]
  length := Nat.le_succ_of_le h.length
  chars := h.chars.cons ch

/-- What is read does not depend on what follows, if the last character is
none of those of which the loop looks at two. -/
theorem exists_reading (context : Context) (text : List Char)
    (hlast : ∀ c ∈ text.getLast?, ¬ Doubles c) :
    ∃ lexemes context', Reading context text lexemes context' := by
  -- Where the loop looks at two characters, the first is not the last of the text.
  induction context, text using lex.induct with
  | case1 context => exact ⟨[], context, fun s => rfl, Nat.le_refl _, List.Sublist.refl _⟩
  | case2 rest ih =>
      obtain ⟨lexemes, context', h⟩ := ih (last_cons (last_cons hlast))
      exact ⟨_, context', h.pair fun s => rfl⟩
  | case3 ch rest hclose ih =>
      obtain ⟨lexemes, context', h⟩ := ih (last_cons hlast)
      refine ⟨_, context', h.char fun s => lex_dollarQuote_char ?_⟩
      rintro rfl
      exact head_append_ne (fun s' => hclose s' rfl) (ne_nil_of_doubles hlast (.inl rfl)) s
  | case4 rest ih =>
      obtain ⟨lexemes, context', h⟩ := ih (last_cons (last_cons hlast))
      exact ⟨_, context', h.pair fun s => rfl⟩
  | case5 rest hescaped ih =>
      obtain ⟨lexemes, context', h⟩ := ih (last_cons hlast)
      refine ⟨_, context', h.char fun s => lex_literal_end ?_⟩
      exact head_append_ne hescaped (ne_nil_of_doubles hlast (.inr (.inl rfl))) s
  | case6 ch rest hescaped hclose ih =>
      obtain ⟨lexemes, context', h⟩ := ih (last_cons hlast)
      exact ⟨_, context', h.char fun s => lex_literal_char hclose⟩
  | case7 rest ih =>
      obtain ⟨lexemes, context', h⟩ := ih (last_cons hlast)
      exact ⟨_, context', h.mark rfl fun s => rfl⟩
  | case8 ch rest hend ih =>
      obtain ⟨lexemes, context', h⟩ := ih (last_cons hlast)
      refine ⟨_, context', h.skip fun s => ?_⟩
      rw [lex]
      exact hend
  | case9 rest ih =>
      obtain ⟨lexemes, context', h⟩ := ih (last_cons (last_cons hlast))
      exact ⟨_, context', h.pair fun s => rfl⟩
  | case10 rest ih =>
      obtain ⟨lexemes, context', h⟩ := ih (last_cons hlast)
      exact ⟨_, context', h.char fun s => rfl⟩
  | case11 rest ih =>
      obtain ⟨lexemes, context', h⟩ := ih (last_cons (last_cons hlast))
      exact ⟨lexemes, context', h.lex, Nat.le_succ_of_le (Nat.le_succ_of_le h.length),
        (h.chars.cons '-').cons '-'⟩
  | case12 rest ih =>
      obtain ⟨lexemes, context', h⟩ := ih (last_cons hlast)
      exact ⟨_, context', h.mark rfl fun s => rfl⟩
  | case13 ch rest hdollar hquote hcomment hend ih =>
      obtain ⟨lexemes, context', h⟩ := ih (last_cons hlast)
      refine ⟨_, context', h.char fun s => lex_char hquote hend ?_ ?_⟩
      · rintro rfl
        exact head_append_ne (fun s' => hdollar s' rfl) (ne_nil_of_doubles hlast (.inl rfl)) s
      · rintro rfl
        exact head_append_ne (fun s' => hcomment s' rfl)
          (ne_nil_of_doubles hlast (.inr (.inr rfl))) s

theorem eq_map_char (h : lexemes.length ≤ (charsOf lexemes).length) :
    lexemes = (charsOf lexemes).map .char := by
  induction lexemes with
  | nil => rfl
  | cons lexeme lexemes ih =>
      have hle : (charsOf lexemes).length ≤ lexemes.length := List.length_filterMap_le _ _
      cases lexeme with
      | char ch => exact congrArg (.char ch :: ·) (ih (Nat.le_of_succ_le_succ h))
      | comment => exact absurd (h.trans hle) (Nat.not_succ_le_self _)
      | terminator => exact absurd (h.trans hle) (Nat.not_succ_le_self _)

/-- Where no character is lost all of them are characters of the statement. -/
theorem Reading.eq_map_char (h : Reading context text lexemes context')
    (hall : text.length ≤ (charsOf lexemes).length) : lexemes = text.map .char := by
  have hchars : charsOf lexemes = text := h.chars.eq_of_length_le hall
  rw [Kysely.eq_map_char (h.length.trans hall), hchars]

end Reading

/-! ### How much is in the statements -/

section Statements

variable {seg : List (Option Char)} {lexemes : List Lexeme} {chars : List Char}

theorem sum_length_statements (seg : List (Option Char)) (lexemes : List Lexeme) :
    (((segments seg lexemes).flatMap fun seg => pushTrimmed seg.reduceOption).map
      List.length).sum ≤ seg.reduceOption.length + (charsOf lexemes).length := by
  -- Trimming only shortens, and each character goes into one statement at most.
  have hpush (current : List Char) :
      ((pushTrimmed current).map List.length).sum ≤ current.length := by
    rw [pushTrimmed]
    split
    · exact Nat.zero_le _
    · rw [List.map_singleton, List.sum_singleton]
      exact length_trim_le current
  induction lexemes generalizing seg with
  | nil =>
      rw [segments, List.flatMap_singleton]
      exact hpush _
  | cons lexeme lexemes ih =>
      cases lexeme with
      | char ch =>
          rw [segments]
          refine (ih _).trans (Nat.le_of_eq ?_)
          have hseg : (seg ++ [some ch]).reduceOption = seg.reduceOption ++ [ch] := by
            rw [List.reduceOption_append]
            rfl
          have hcons : charsOf (.char ch :: lexemes) = ch :: charsOf lexemes := rfl
          rw [hseg, hcons, List.length_append, List.length_cons, List.length_cons]
          simp only [List.length_nil]
          omega
      | comment =>
          rw [segments]
          refine (ih _).trans (Nat.le_of_eq ?_)
          rw [List.reduceOption_append]
          show (seg.reduceOption ++ []).length + _ = _
          rw [List.append_nil]
          rfl
      | terminator =>
          rw [segments, List.flatMap_cons, List.map_append, List.sum_append]
          have hhead := hpush seg.reduceOption
          have htail := ih []
          have hnil : ([] : List (Option Char)).reduceOption.length = 0 := rfl
          have hcons : charsOf (.terminator :: lexemes) = charsOf lexemes := rfl
          rw [hcons]
          omega

theorem segments_append_chars (seg : List (Option Char)) (lexemes : List Lexeme)
    (chars : List Char) :
    ∃ segs last, segments seg (lexemes ++ chars.map .char) = segs ++ [last ++ chars.map some] := by
  induction lexemes generalizing seg with
  | nil =>
      refine ⟨[], seg, ?_⟩
      have hchars := segments_chars chars seg []
      rwa [List.append_nil] at hchars
  | cons lexeme lexemes ih =>
      cases lexeme with
      | char ch => exact ih _
      | comment => exact ih _
      | terminator =>
          obtain ⟨segs, last, hsegs⟩ := ih []
          refine ⟨seg :: segs, last, ?_⟩
          rw [List.cons_append, segments, hsegs]
          rfl

/-- Characters that are read last are at the end of the last statement. -/
theorem statements_append_chars {a b : Char} (hb : isWhiteSpace b = false)
    (ha : isWhiteSpace a = false) (lexemes : List Lexeme) (middle : List Char) :
    ∃ statements rest, statementsFrom [] (lexemes ++ (b :: (middle ++ [a])).map .char) =
      statements ++ [rest ++ b :: (middle ++ [a])] := by
  obtain ⟨segs, last, hsegs⟩ := segments_append_chars ([].map some) lexemes (b :: (middle ++ [a]))
  obtain ⟨rest, hrest⟩ := exists_trim_append hb ha last.reduceOption middle
  refine ⟨segs.flatMap fun seg => pushTrimmed seg.reduceOption, rest, ?_⟩
  have hpush : pushTrimmed (last ++ (b :: (middle ++ [a])).map some).reduceOption =
      [rest ++ b :: (middle ++ [a])] := by
    rw [List.reduceOption_append, reduceOption_map_some, pushTrimmed, hrest, if_neg (by simp)]
  rw [statementsFrom, hsegs, List.flatMap_append, List.flatMap_singleton, hpush]

end Statements

/-! ### Blocks -/

section Blocks

variable {before block after inner : List Char} {lexemes : List Lexeme} {context : Context}

theorem opaque_iff : Opaque before block after ↔
    statementsFrom [] (lex .plain (before ++ (block ++ after))) =
      statementsFrom [] (lex .plain before ++ (block.map .char ++ lex .plain after)) := by
  have hinj : Function.Injective (List.map String.ofList) :=
    List.map_injective_iff.mpr fun _ _ h => String.ofList_injective h
  rw [Opaque, splitStatements, String.toList_ofList, hinj.eq_iff, splitFrom_eq_statementsFrom]

/-- A block that is read as characters is opaque. -/
theorem opaque_of_lex (hbefore : Outside before)
    (hblock : lex .plain (('$' :: inner) ++ after) = ('$' :: inner).map .char ++ lex .plain after) :
    Opaque before ('$' :: inner) after := by
  rw [opaque_iff, ← hblock]
  exact congrArg _ (hbefore _)

theorem outside_nil : Outside [] := fun _ => rfl

theorem isWhiteSpace_dollar : isWhiteSpace '$' = false := by decide

theorem isWhiteSpace_a : isWhiteSpace 'a' = false := by decide

theorem pushTrimmed_dollars (middle : List Char) :
    pushTrimmed ('$' :: (middle ++ ['$'])) = ['$' :: (middle ++ ['$'])] := by
  obtain ⟨rest, hrest⟩ := exists_trim_append isWhiteSpace_dollar isWhiteSpace_dollar [] middle
  rw [List.nil_append] at hrest
  have hle : (trim isWhiteSpace ('$' :: (middle ++ ['$']))).length ≤ _ := length_trim_le _
  rw [hrest, List.length_append] at hle
  obtain rfl : rest = [] := List.eq_nil_of_length_eq_zero (by omega)
  rw [pushTrimmed, hrest, if_neg (by simp)]
  rfl

theorem statements_of_block (middle : List Char) :
    statementsFrom [] (('$' :: (middle ++ ['$'])).map .char ++ [.terminator, .char 'a']) =
      ['$' :: (middle ++ ['$']), ['a']] := by
  rw [statementsFrom_chars, statementsFrom_terminator, List.nil_append, pushTrimmed_dollars]
  rfl

/-- A block is not followed by other statements as it should be, unless it is
read as characters up to its last dollar sign. -/
theorem reading_of_opaque {middle : List Char}
    (hreading : Reading .plain ('$' :: middle) lexemes context)
    (h : Opaque [] ('$' :: (middle ++ ['$'])) [';', 'a']) :
    context = .plain ∧ lexemes = ('$' :: middle).map .char := by
  have hlex : lex .plain ([] ++ (('$' :: (middle ++ ['$'])) ++ [';', 'a'])) =
      lexemes ++ lex context ['$', ';', 'a'] := by
    rw [← hreading.lex, List.nil_append, List.cons_append, List.append_assoc]
    rfl
  have hblock : statementsFrom [] (lexemes ++ lex context ['$', ';', 'a']) =
      ['$' :: (middle ++ ['$']), ['a']] := by
    rw [← hlex, opaque_iff.mp h]
    exact statements_of_block middle
  -- Where the end of the statement is not seen, it is at the end of the last statement.
  have hunread (hcontext : lex context ['$', ';', 'a'] = ['$', ';', 'a'].map .char) : False := by
    obtain ⟨statements, rest, hlast⟩ :=
      statements_append_chars isWhiteSpace_dollar isWhiteSpace_a lexemes [';']
    rw [hcontext] at hblock
    have heq := congrArg List.getLast? (hblock.symm.trans hlast)
    rw [List.getLast?_concat] at heq
    have hlength := congrArg List.length (Option.some.inj heq)
    rw [List.length_append] at hlength
    simp at hlength
  have hsum := sum_length_statements [] (lexemes ++ lex context ['$', ';', 'a'])
  have hblock' : ((segments [] (lexemes ++ lex context ['$', ';', 'a'])).flatMap fun seg =>
      pushTrimmed seg.reduceOption) = ['$' :: (middle ++ ['$']), ['a']] := hblock
  have hall : (['$' :: (middle ++ ['$']), ['a']].map List.length).sum = middle.length + 3 := by
    simp
  rw [hblock', hall, charsOf, List.filterMap_append, List.length_append, ← charsOf,
    ← charsOf] at hsum
  have hnil : ([] : List (Option Char)).reduceOption.length = 0 := rfl
  cases context with
  | dollarQuote => exact (hunread rfl).elim
  | stringLiteral => exact (hunread rfl).elim
  | comment =>
      have hle : (charsOf lexemes).length ≤ middle.length + 1 := hreading.chars.length_le
      have hrest : (charsOf (lex .comment ['$', ';', 'a'])).length = 0 := rfl
      omega
  | plain =>
      have hrest : (charsOf (lex .plain ['$', ';', 'a'])).length = 2 := rfl
      refine ⟨rfl, hreading.eq_map_char ?_⟩
      rw [List.length_cons]
      omega

end Blocks

/-! ### Blocks with a tag and without -/

section Tags

variable {tag body : List Char}

theorem dollarQuoted_eq (tag body : List Char) :
    dollarQuoted tag body = '$' :: ((tag ++ '$' :: (body ++ '$' :: tag)) ++ ['$']) := by
  simp [dollarQuoted, delimiter]

theorem IsTag.not_doubles (htag : IsTag tag) : ∀ c ∈ tag, ¬ Doubles c := by
  intro c hc hdoubles
  have hch := htag.1 c hc
  rcases hdoubles with rfl | rfl | rfl <;> exact absurd hch (by decide)

/-- How a block with a tag is read up to its last dollar sign. -/
theorem exists_reading_tagged (htag : IsTag tag) (hne : tag ≠ []) (body : List Char) :
    ∃ lexemes context,
      Reading .plain ('$' :: (tag ++ '$' :: (body ++ '$' :: tag))) lexemes context := by
  refine exists_reading .plain _ fun c hc => htag.not_doubles c ?_
  have hlast : ('$' :: (tag ++ '$' :: (body ++ '$' :: tag))).getLast? = tag.getLast? := by
    obtain ⟨ch, tag, rfl⟩ := List.exists_cons_of_ne_nil hne
    simp [List.getLast?_cons, List.getLast?_append]
  rw [hlast] at hc
  exact List.mem_of_getLast? hc

/-- Without a tag a block is opaque. -/
theorem opaque_untagged (hbody : EndsAtDelimiter [] body) {before : List Char}
    (hbefore : Outside before) (after : List Char) :
    Opaque before (dollarQuoted [] body) after := by
  have hbody' : ¬ ['$', '$'] <:+: body ++ ['$'] := by
    have hlast : (body ++ delimiter []).dropLast = body ++ ['$'] := by
      simp [delimiter, List.dropLast_append_of_ne_nil]
    rw [EndsAtDelimiter, hlast] at hbody
    exact hbody
  have heq : dollarQuoted [] body = '$' :: '$' :: (body ++ ['$', '$']) := by
    simp [dollarQuoted, delimiter]
  rw [heq]
  refine opaque_of_lex hbefore ?_
  rw [List.cons_append, List.cons_append, List.append_assoc, List.cons_append, List.cons_append,
    List.nil_append, lex, lex_block hbody']
  simp only [List.map_cons, List.map_append, List.map_nil, List.cons_append, List.append_assoc,
    List.nil_append]

/-- What it takes for the next statement to be cut off after a block with a tag. -/
theorem tagged_reading (htag : IsTag tag) (hne : tag ≠ [])
    (h : Opaque [] (dollarQuoted tag body) [';', 'a']) :
    Reading .plain ('$' :: (tag ++ '$' :: (body ++ '$' :: tag)))
      (('$' :: (tag ++ '$' :: (body ++ '$' :: tag))).map .char) .plain := by
  obtain ⟨lexemes, context, hreading⟩ := exists_reading_tagged htag hne body
  rw [dollarQuoted_eq] at h
  obtain ⟨rfl, rfl⟩ := reading_of_opaque hreading h
  exact hreading

/-- A dollar sign right after such a block is taken for the second one of a `$$`. -/
theorem not_opaque_dollar {middle : List Char}
    (hreading : Reading .plain ('$' :: middle) (('$' :: middle).map .char) .plain) :
    ¬ Opaque [] ('$' :: (middle ++ ['$'])) ['$', ';', 'a'] := by
  intro h
  have hopens : lex .plain ['$', '$', ';', 'a'] = ['$', '$', ';', 'a'].map .char := rfl
  have hlex : lex .plain ([] ++ (('$' :: (middle ++ ['$'])) ++ ['$', ';', 'a'])) =
      (('$' :: middle) ++ ['$', '$', ';', 'a']).map .char := by
    rw [List.map_append, ← hopens, ← hreading.lex, List.nil_append, List.cons_append,
      List.append_assoc]
    rfl
  have hone : statementsFrom []
      (lex .plain ([] ++ (('$' :: (middle ++ ['$'])) ++ ['$', ';', 'a']))) =
        pushTrimmed (('$' :: middle) ++ ['$', '$', ';', 'a']) := by
    rw [hlex, ← List.append_nil (List.map _ _), statementsFrom_chars, statementsFrom_nil,
      List.nil_append]
  have htwo : statementsFrom []
      (('$' :: (middle ++ ['$'])).map .char ++ lex .plain ['$', ';', 'a']) =
        ['$' :: ((middle ++ ['$']) ++ ['$']), ['a']] := by
    have hlex' : lex .plain ['$', ';', 'a'] = [.char '$', .terminator, .char 'a'] := rfl
    rw [← statements_of_block, hlex']
    simp only [List.map_cons, List.map_append, List.map_nil, List.cons_append, List.append_assoc,
      List.nil_append]
  have hlength := congrArg List.length (hone.symm.trans ((opaque_iff.mp h).trans htwo))
  rw [pushTrimmed] at hlength
  split at hlength
  · exact absurd hlength (by simp)
  · exact absurd hlength (by simp)

/-- A dollar-quoted block is opaque wherever it stands exactly when its tag is
empty. A block with a tag that no dollar sign follows is opaque exactly when it
would be read as characters of the statement anyway. -/
theorem dollarQuoted_opaque_iff (htag : IsTag tag) (hbody : EndsAtDelimiter tag body) :
    ((∀ before after, Outside before → Opaque before (dollarQuoted tag body) after) ↔
        tag = []) ∧
      (tag ≠ [] →
        ((∀ before after, Outside before → after.head? ≠ some '$' →
            Opaque before (dollarQuoted tag body) after) ↔
          ReadsAsText (dollarQuoted tag body))) := by
  refine ⟨⟨fun h => ?_, ?_⟩, fun hne => ⟨fun h s hs => ?_, fun h before after hbefore hafter => ?_⟩⟩
  · by_contra hne
    have hreading := tagged_reading htag hne (h [] [';', 'a'] outside_nil)
    refine not_opaque_dollar hreading ?_
    rw [← dollarQuoted_eq]
    exact h [] ['$', ';', 'a'] outside_nil
  · rintro rfl before after hbefore
    exact opaque_untagged hbody hbefore after
  · have hreading := tagged_reading htag hne (h [] [';', 'a'] outside_nil (by decide))
    have hlast : lex .plain ('$' :: s) = .char '$' :: lex .plain s :=
      lex_char (by decide) (by decide) (fun _ => hs) fun heq => absurd heq (by decide)
    rw [dollarQuoted_eq, List.cons_append, List.append_assoc, ← List.cons_append,
      List.singleton_append, hreading.lex, hlast]
    simp only [List.map_cons, List.map_append, List.map_nil, List.cons_append, List.append_assoc,
      List.nil_append]
  · rw [dollarQuoted_eq] at h ⊢
    exact opaque_of_lex hbefore (h after hafter)

/-- A semicolon in a tagged block cuts the block in two. -/
theorem tagged_not_opaque :
    ¬ ∀ tag body before after, IsTag tag → EndsAtDelimiter tag body → Outside before →
      Opaque before (dollarQuoted tag body) after := by
  intro h
  obtain ⟨htag, hbody, hcut⟩ : IsTag "body".toList ∧
      EndsAtDelimiter "body".toList " BEGIN; END ".toList ∧
      ¬ Opaque "DO ".toList (dollarQuoted "body".toList " BEGIN; END ".toList) ";\n".toList := by
    decide +kernel
  exact hcut (h _ _ _ _ htag hbody fun s => rfl)

/-- The block of the migrations, with a semicolon, two hyphens and an apostrophe in it. -/
theorem dollarQuoted_opaque_iff_untagged :
    Opaque "DO ".toList (dollarQuoted [] "--;'".toList) "; SELECT 1".toList := by
  obtain ⟨htag, hbody⟩ : IsTag [] ∧ EndsAtDelimiter [] "--;'".toList := by decide +kernel
  exact (dollarQuoted_opaque_iff htag hbody).1.mpr rfl _ _ fun s => rfl

end Tags

end PureplayIngest.Shared.Kysely
