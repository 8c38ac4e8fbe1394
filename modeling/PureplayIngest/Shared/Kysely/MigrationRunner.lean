import PureplayIngest.Lib.Blank
import PureplayIngest.Shared.JsString

/-!
`splitStatements`: a SQL file cut into its statements.

The two flags of the loop, and the inner loop that skips a comment, are a
context the characters are read in.
-/

namespace PureplayIngest.Shared.Kysely

open Lib

inductive Context
  | plain | dollarQuote | stringLiteral | comment

/-- `current.trim()`, when it is not empty. -/
def pushTrimmed (current : List Char) : List (List Char) :=
  if trim isWhiteSpace current = [] then [] else [trim isWhiteSpace current]

/-- The loop, from a context and what it has of the current statement. -/
def splitFrom : Context → List Char → List Char → List (List Char)
  | _, current, [] => pushTrimmed current
  | .dollarQuote, current, '$' :: '$' :: s => splitFrom .plain (current ++ ['$', '$']) s
  | .dollarQuote, current, ch :: s => splitFrom .dollarQuote (current ++ [ch]) s
  | .stringLiteral, current, '\'' :: '\'' :: s =>
      splitFrom .stringLiteral (current ++ ['\'', '\'']) s
  | .stringLiteral, current, '\'' :: s => splitFrom .plain (current ++ ['\'']) s
  | .stringLiteral, current, ch :: s => splitFrom .stringLiteral (current ++ [ch]) s
  -- The inner loop stops at the newline, and `i++` of the outer one steps over it.
  | .comment, current, '\n' :: s => splitFrom .plain current s
  | .comment, current, _ :: s => splitFrom .comment current s
  | .plain, current, '$' :: '$' :: s => splitFrom .dollarQuote (current ++ ['$', '$']) s
  | .plain, current, '\'' :: s => splitFrom .stringLiteral (current ++ ['\'']) s
  | .plain, current, '-' :: '-' :: s => splitFrom .comment current s
  | .plain, current, ';' :: s => pushTrimmed current ++ splitFrom .plain [] s
  | .plain, current, ch :: s => splitFrom .plain (current ++ [ch]) s

def splitStatements (content : String) : List String :=
  (splitFrom .plain [] content.toList).map String.ofList

example : splitStatements "DO $$ a; $$; -- b; c\nSELECT ';''' ;\n" =
    ["DO $$ a; $$", "SELECT ';'''"] := by decide

/-! ### Lexemes -/

/-- A character of a statement, a comment with the newline that ends it, and
the end of a statement. A comment that the file ends in is none of these. -/
inductive Lexeme
  | char (ch : Char)
  | comment
  | terminator

def lex : Context → List Char → List Lexeme
  | _, [] => []
  | .dollarQuote, '$' :: '$' :: s => .char '$' :: .char '$' :: lex .plain s
  | .dollarQuote, ch :: s => .char ch :: lex .dollarQuote s
  | .stringLiteral, '\'' :: '\'' :: s => .char '\'' :: .char '\'' :: lex .stringLiteral s
  | .stringLiteral, '\'' :: s => .char '\'' :: lex .plain s
  | .stringLiteral, ch :: s => .char ch :: lex .stringLiteral s
  | .comment, '\n' :: s => .comment :: lex .plain s
  | .comment, _ :: s => lex .comment s
  | .plain, '$' :: '$' :: s => .char '$' :: .char '$' :: lex .dollarQuote s
  | .plain, '\'' :: s => .char '\'' :: lex .stringLiteral s
  | .plain, '-' :: '-' :: s => lex .comment s
  | .plain, ';' :: s => .terminator :: lex .plain s
  | .plain, ch :: s => .char ch :: lex .plain s

/-- The statements, cut at the terminators; `none` stands for a comment. -/
def segments : List (Option Char) → List Lexeme → List (List (Option Char))
  | current, [] => [current]
  | current, .char ch :: lexemes => segments (current ++ [some ch]) lexemes
  | current, .comment :: lexemes => segments (current ++ [none]) lexemes
  | current, .terminator :: lexemes => current :: segments [] lexemes

/-- The loop leaves out the comments of a statement together with their newlines. -/
theorem splitFrom_eq (context : Context) {current : List Char} {seg : List (Option Char)}
    (h : seg.reduceOption = current) (s : List Char) :
    splitFrom context current s =
      (segments seg (lex context s)).flatMap fun seg => pushTrimmed seg.reduceOption := by
  have hchar {seg : List (Option Char)} {current : List Char} (h : seg.reduceOption = current)
      (ch : Char) : (seg ++ [some ch]).reduceOption = current ++ [ch] := by
    rw [List.reduceOption_append, h]
    rfl
  have hcomment {seg : List (Option Char)} {current : List Char} (h : seg.reduceOption = current) :
      (seg ++ [none]).reduceOption = current := by
    rw [List.reduceOption_append, h]
    exact List.append_nil current
  -- Along the loop: `seg` is what the current statement is made of, comments still in it.
  induction context, current, s using splitFrom.induct generalizing seg with
  | case1 context current =>
      rw [splitFrom, lex, segments, List.flatMap_singleton, h]
  | case2 current s ih =>
      rw [splitFrom, lex, segments, segments]
      exact ih ((hchar (hchar h '$') '$').trans (List.append_assoc ..))
  | case3 current ch s hclose ih =>
      rw [splitFrom, lex, segments]
      · exact ih (hchar h ch)
      · exact hclose
      · exact hclose
  | case4 current s ih =>
      rw [splitFrom, lex, segments, segments]
      exact ih ((hchar (hchar h '\'') '\'').trans (List.append_assoc ..))
  | case5 current s hescaped ih =>
      rw [splitFrom, lex, segments]
      · exact ih (hchar h '\'')
      · exact hescaped
      · exact hescaped
  | case6 current ch s hescaped hclose ih =>
      rw [splitFrom, lex, segments]
      · exact ih (hchar h ch)
      all_goals assumption
  | case7 current s ih =>
      rw [splitFrom, lex, segments]
      exact ih (hcomment h)
  | case8 current ch s hend ih =>
      rw [splitFrom, lex]
      · exact ih h
      · exact hend
      · exact hend
  | case9 current s ih =>
      rw [splitFrom, lex, segments, segments]
      exact ih ((hchar (hchar h '$') '$').trans (List.append_assoc ..))
  | case10 current s ih =>
      rw [splitFrom, lex, segments]
      exact ih (hchar h '\'')
  | case11 current s ih =>
      rw [splitFrom, lex]
      exact ih h
  | case12 current s ih =>
      rw [splitFrom, lex, segments, List.flatMap_cons, h, ih List.reduceOption_nil]
  | case13 current ch s hdollar hquote hcomment hend ih =>
      rw [splitFrom, lex, segments]
      · exact ih (hchar h ch)
      all_goals assumption

/-! ### What the lexemes of a text are -/

section

variable {ch : Char} {s : List Char}

theorem lex_char (hquote : ch ≠ '\'') (hend : ch ≠ ';') (hdollar : ch = '$' → s.head? ≠ some '$')
    (hcomment : ch = '-' → s.head? ≠ some '-') :
    lex .plain (ch :: s) = .char ch :: lex .plain s := by
  rw [lex]
  · rintro s' rfl rfl
    exact hdollar rfl rfl
  · exact hquote
  · rintro s' rfl rfl
    exact hcomment rfl rfl
  · exact hend

theorem lex_dollarQuote_char (hclose : ch = '$' → s.head? ≠ some '$') :
    lex .dollarQuote (ch :: s) = .char ch :: lex .dollarQuote s := by
  rw [lex]
  rintro s' rfl rfl
  exact hclose rfl rfl

theorem lex_literal_char (h : ch ≠ '\'') :
    lex .stringLiteral (ch :: s) = .char ch :: lex .stringLiteral s := by
  rw [lex]
  · exact fun s' heq _ => h heq
  · exact h

theorem lex_literal_end (h : s.head? ≠ some '\'') :
    lex .stringLiteral ('\'' :: s) = .char '\'' :: lex .plain s := by
  rw [lex]
  rintro s' rfl
  exact h rfl

end

theorem isWhiteSpace_ne {ch : Char} (h : isWhiteSpace ch = true) :
    ch ≠ '\'' ∧ ch ≠ ';' ∧ ch ≠ '$' ∧ ch ≠ '-' := by
  refine ⟨?_, ?_, ?_, ?_⟩ <;>
  · rintro rfl
    exact absurd h (by decide)

theorem lex_blanks {blanks : List Char} (h : ∀ ch ∈ blanks, isWhiteSpace ch = true)
    (s : List Char) : lex .plain (blanks ++ s) = blanks.map .char ++ lex .plain s := by
  induction blanks with
  | nil => rfl
  | cons ch blanks ih =>
      obtain ⟨hquote, hend, hdollar, hcomment⟩ := isWhiteSpace_ne (h ch List.mem_cons_self)
      rw [List.cons_append, lex_char hquote hend (fun heq => absurd heq hdollar)
        (fun heq => absurd heq hcomment), ih fun c hc => h c (List.mem_cons_of_mem ch hc)]
      rfl

/-! ### Statements -/

/-- The characters between the quotes of a literal, with every quote doubled. -/
def doubled (body : List Char) : List Char :=
  body.flatMap fun ch => if ch = '\'' then ['\'', '\''] else [ch]

/-- A text without line comments, with semicolons only in literals and `$$`
blocks, and with every literal and every block closed. -/
inductive Closed : List Char → Prop
  | nil : Closed []
  | char {ch : Char} {s : List Char} (hquote : ch ≠ '\'') (hend : ch ≠ ';')
      (hdollar : ch = '$' → s.head? ≠ some '$') (hcomment : ch = '-' → s.head? ≠ some '-')
      (hrest : Closed s) : Closed (ch :: s)
  | literal (body : List Char) {s : List Char} (hnext : s.head? ≠ some '\'') (hrest : Closed s) :
      Closed ('\'' :: (doubled body ++ '\'' :: s))
  | block {body s : List Char} (hbody : ¬ ['$', '$'] <:+: body ++ ['$']) (hrest : Closed s) :
      Closed ('$' :: '$' :: (body ++ '$' :: '$' :: s))

structure IsStatement (text : List Char) : Prop where
  nonempty : text ≠ []
  trimmed : trim isWhiteSpace text = text
  closed : Closed text

/-- Statements, each with the white space after it. The last semicolon may be left out. -/
def joinStatements (lastSemicolon : Bool) : List (String × String) → List Char
  | [] => []
  | [(statement, blanks)] =>
      statement.toList ++ if lastSemicolon then ';' :: blanks.toList else blanks.toList
  | (statement, blanks) :: statements =>
      statement.toList ++ ';' :: (blanks.toList ++ joinStatements lastSemicolon statements)

theorem lex_doubled {s : List Char} (hnext : s.head? ≠ some '\'') (body : List Char) :
    lex .stringLiteral (doubled body ++ '\'' :: s) =
      (doubled body).map .char ++ .char '\'' :: lex .plain s := by
  induction body with
  | nil => exact lex_literal_end hnext
  | cons ch body ih =>
      rw [doubled, List.flatMap_cons, ← doubled]
      by_cases hch : ch = '\''
      · rw [if_pos hch]
        show lex .stringLiteral ('\'' :: '\'' :: (doubled body ++ '\'' :: s)) = _
        rw [lex, ih]
        rfl
      · rw [if_neg hch]
        show lex .stringLiteral (ch :: (doubled body ++ '\'' :: s)) = _
        rw [lex_literal_char hch, ih]
        rfl

theorem lex_block {body : List Char} (hbody : ¬ ['$', '$'] <:+: body ++ ['$']) (s : List Char) :
    lex .dollarQuote (body ++ '$' :: '$' :: s) =
      body.map .char ++ .char '$' :: .char '$' :: lex .plain s := by
  induction body with
  | nil => rfl
  | cons ch body ih =>
      have hclose : ch = '$' → (body ++ '$' :: '$' :: s).head? ≠ some '$' := by
        rintro rfl hhead
        refine hbody (List.IsPrefix.isInfix ?_)
        cases body with
        | nil => exact List.prefix_rfl
        | cons c body =>
            obtain rfl : c = '$' := Option.some.inj hhead
            exact ⟨body ++ ['$'], rfl⟩
      have htail : ¬ ['$', '$'] <:+: body ++ ['$'] := fun h =>
        hbody (h.trans (List.suffix_cons ch _).isInfix)
      rw [List.cons_append, lex_dollarQuote_char hclose, ih htail]
      rfl

/-- The lexemes of a statement are its characters, whatever ends it. -/
theorem lex_closed {text rest : List Char} (h : Closed text)
    (hrest : ∀ ch ∈ rest.head?, ch ≠ '\'' ∧ ch ≠ '$' ∧ ch ≠ '-') :
    lex .plain (text ++ rest) = text.map .char ++ lex .plain rest := by
  have hhead {s : List Char} {c : Char} (hc : c = '\'' ∨ c = '$' ∨ c = '-')
      (hs : s.head? ≠ some c) : (s ++ rest).head? ≠ some c := by
    cases s with
    | nil =>
        intro h
        obtain ⟨hquote, hdollar, hdash⟩ := hrest c h
        exact hc.elim hquote (Or.elim · hdollar hdash)
    | cons d s => exact hs
  induction h with
  | nil => rfl
  | @char ch s hquote hend hdollar hcomment hs ih =>
      rw [List.cons_append, lex_char hquote hend (fun heq => hhead (by simp) (hdollar heq))
        (fun heq => hhead (by simp) (hcomment heq)), ih]
      rfl
  | @literal body s hnext hs ih =>
      rw [List.cons_append, List.append_assoc, List.cons_append, lex,
        lex_doubled (hhead (by simp) hnext), ih]
      simp only [List.map_cons, List.map_append, List.cons_append, List.append_assoc]
  | @block body s hbody hs ih =>
      rw [List.cons_append, List.cons_append, List.append_assoc, List.cons_append,
        List.cons_append, lex, lex_block hbody, ih]
      simp only [List.map_cons, List.map_append, List.cons_append, List.append_assoc]

theorem segments_chars (chars : List Char) (seg : List (Option Char)) (lexemes : List Lexeme) :
    segments seg (chars.map .char ++ lexemes) = segments (seg ++ chars.map some) lexemes := by
  induction chars generalizing seg with
  | nil => rw [List.map_nil, List.map_nil, List.append_nil]; rfl
  | cons ch chars ih =>
      rw [List.map_cons, List.cons_append, segments, ih, List.append_assoc]
      rfl

theorem reduceOption_map_some (chars : List Char) : (chars.map some).reduceOption = chars := by
  rw [List.reduceOption, List.filterMap_map]
  exact List.filterMap_some

theorem pushTrimmed_blanks {blanks : List Char} (h : ∀ ch ∈ blanks, isWhiteSpace ch = true) :
    pushTrimmed blanks = [] := if_pos (trim_eq_nil_iff.mpr h)

theorem pushTrimmed_statement {before text after : List Char}
    (hbefore : ∀ ch ∈ before, isWhiteSpace ch = true)
    (hafter : ∀ ch ∈ after, isWhiteSpace ch = true) (h : IsStatement text) :
    pushTrimmed (before ++ (text ++ after)) = [text] := by
  rw [pushTrimmed, trim_blanks hbefore hafter h.trimmed, if_neg h.nonempty]

/-- The statements of the lexemes, after the characters of the current statement. -/
def statementsFrom (current : List Char) (lexemes : List Lexeme) : List (List Char) :=
  (segments (current.map some) lexemes).flatMap fun seg => pushTrimmed seg.reduceOption

theorem statementsFrom_nil (current : List Char) :
    statementsFrom current [] = pushTrimmed current := by
  rw [statementsFrom, segments, List.flatMap_singleton, reduceOption_map_some]

theorem statementsFrom_chars (current chars : List Char) (lexemes : List Lexeme) :
    statementsFrom current (chars.map .char ++ lexemes) =
      statementsFrom (current ++ chars) lexemes := by
  rw [statementsFrom, segments_chars, ← List.map_append, statementsFrom]

theorem statementsFrom_terminator (current : List Char) (lexemes : List Lexeme) :
    statementsFrom current (.terminator :: lexemes) =
      pushTrimmed current ++ statementsFrom [] lexemes := by
  rw [statementsFrom, segments, List.flatMap_cons, reduceOption_map_some]
  rfl

theorem splitFrom_eq_statementsFrom (current s : List Char) :
    splitFrom .plain current s = statementsFrom current (lex .plain s) :=
  splitFrom_eq .plain (reduceOption_map_some current) s

/-- A statement and the semicolon after it are taken off the text. -/
theorem splitFrom_statement {before text : List Char}
    (hbefore : ∀ ch ∈ before, isWhiteSpace ch = true) (h : IsStatement text) (s : List Char) :
    splitFrom .plain before (text ++ ';' :: s) = text :: splitFrom .plain [] s := by
  have hlex : lex .plain (text ++ ';' :: s) = text.map .char ++ .terminator :: lex .plain s := by
    rw [lex_closed h.closed (by simp), lex]
  have hpush : pushTrimmed (before ++ (text ++ [])) = [text] :=
    pushTrimmed_statement hbefore (by simp) h
  rw [List.append_nil] at hpush
  rw [splitFrom_eq_statementsFrom, hlex, statementsFrom_chars, statementsFrom_terminator, hpush,
    splitFrom_eq_statementsFrom]
  rfl

theorem splitFrom_blanks {blanks : List Char} (h : ∀ ch ∈ blanks, isWhiteSpace ch = true)
    (s : List Char) : splitFrom .plain [] (blanks ++ s) = splitFrom .plain blanks s := by
  rw [splitFrom_eq_statementsFrom, lex_blanks h, statementsFrom_chars, List.nil_append,
    splitFrom_eq_statementsFrom]

/-- The last statement, with no semicolon after it. -/
theorem splitFrom_last {before text after : List Char}
    (hbefore : ∀ ch ∈ before, isWhiteSpace ch = true)
    (hafter : ∀ ch ∈ after, isWhiteSpace ch = true) (h : IsStatement text) :
    splitFrom .plain before (text ++ after) = [text] := by
  have hend : ∀ ch ∈ after.head?, ch ≠ '\'' ∧ ch ≠ '$' ∧ ch ≠ '-' := fun ch hch =>
    have hne := isWhiteSpace_ne (hafter ch (List.mem_of_mem_head? hch))
    ⟨hne.1, hne.2.2⟩
  have hlex : lex .plain after = after.map .char := by
    have hblanks := lex_blanks hafter []
    rwa [List.append_nil, lex, List.append_nil] at hblanks
  rw [splitFrom_eq_statementsFrom, lex_closed h.closed hend, hlex, statementsFrom_chars,
    ← List.append_nil (after.map _), statementsFrom_chars, statementsFrom_nil, List.append_assoc,
    pushTrimmed_statement hbefore hafter h]

theorem splitFrom_join {lastSemicolon : Bool} {statements : List (String × String)}
    (hstatements : ∀ s ∈ statements, IsStatement s.1.toList)
    (hblanks : ∀ s ∈ statements, ∀ ch ∈ s.2.toList, isWhiteSpace ch = true) {before : List Char}
    (hbefore : ∀ ch ∈ before, isWhiteSpace ch = true) :
    splitFrom .plain before (joinStatements lastSemicolon statements) =
      statements.map (·.1.toList) := by
  induction statements using joinStatements.induct generalizing before with
  | case1 => exact pushTrimmed_blanks hbefore
  | case2 statement blanks =>
      have hstatement : IsStatement statement.toList := hstatements _ (List.mem_singleton_self _)
      have hafter : ∀ ch ∈ blanks.toList, isWhiteSpace ch = true :=
        hblanks _ (List.mem_singleton_self _)
      rw [joinStatements]
      cases lastSemicolon with
      | false => exact splitFrom_last hbefore hafter hstatement
      | true =>
          have hrest : splitFrom .plain [] blanks.toList = [] := by
            rw [← List.append_nil blanks.toList, splitFrom_blanks hafter]
            exact pushTrimmed_blanks hafter
          rw [if_pos rfl, splitFrom_statement hbefore hstatement, hrest]
          rfl
  | case3 statement blanks statements hne ih =>
      rw [joinStatements, splitFrom_statement hbefore (hstatements _ List.mem_cons_self),
        splitFrom_blanks (hblanks _ List.mem_cons_self),
        ih (fun s hs => hstatements s (List.mem_cons_of_mem _ hs))
          (fun s hs => hblanks s (List.mem_cons_of_mem _ hs)) (hblanks _ List.mem_cons_self)]
      · rfl
      · exact hne

/-- Splitting undoes joining. -/
theorem splitStatements_join {lastSemicolon : Bool} {statements : List (String × String)}
    (hstatements : ∀ s ∈ statements, IsStatement s.1.toList)
    (hblanks : ∀ s ∈ statements, ∀ ch ∈ s.2.toList, isWhiteSpace ch = true) :
    splitStatements (String.ofList (joinStatements lastSemicolon statements)) =
      statements.map (·.1) := by
  rw [splitStatements, String.toList_ofList,
    splitFrom_join hstatements hblanks fun _ h => absurd h List.not_mem_nil, List.map_map]
  exact List.map_congr_left fun s _ => String.ofList_toList

/-! A literal that has a semicolon, two dashes and a quote in it, and a block
that has a semicolon and a quote. -/

theorem closed_values : Closed "V ';--'''".toList :=
  .char (by decide) (by decide) (by decide) (by decide)
    (.char (by decide) (by decide) (by decide) (by decide)
      (.literal [';', '-', '-', '\''] (by decide) .nil))

theorem closed_do : Closed "$$;'$$".toList := @Closed.block [';', '\''] [] (by decide) .nil

theorem splitStatements_join_quoted :
    splitStatements (String.ofList
      (joinStatements false [("V ';--'''", "\n\n"), ("$$;'$$", "\n")])) =
      ["V ';--'''", "$$;'$$"] := by
  refine splitStatements_join (fun s hs => ?_) fun s hs ch hch => List.all_eq_true.mp ?_ ch hch
  · obtain rfl | rfl : s = ("V ';--'''", "\n\n") ∨ s = ("$$;'$$", "\n") := by simpa using hs
    · exact ⟨by decide, by decide, closed_values⟩
    · exact ⟨by decide, by decide, closed_do⟩
  · obtain rfl | rfl : s = ("V ';--'''", "\n\n") ∨ s = ("$$;'$$", "\n") := by simpa using hs
    · decide
    · decide

end PureplayIngest.Shared.Kysely
