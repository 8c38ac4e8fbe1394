import PureplayIngest.Shared.Kysely.MigrationRunner

/-!
Line comments between statements and inside them.

A comment is skipped together with the newline that ends it. A statement with
a comment is therefore read as if neither had been there, which makes a
difference where nothing but the newline kept two words apart.
-/

namespace PureplayIngest.Shared.Kysely

open Lib

/-- A comment leaves its newline behind. -/
def Lexeme.text : Lexeme → List Char
  | .char ch => [ch]
  | .comment => ['\n']
  | .terminator => [';']

/-- The text with every line comment deleted up to its newline. -/
def withoutComments (content : String) : String :=
  String.ofList ((lex .plain content.toList).flatMap Lexeme.text)

/-- A statement with every run of white space replaced by one space. -/
def collapseBlanks (statement : String) : String :=
  String.ofList (collapse isWhiteSpace ' ' statement.toList)

/-- Up to white space, the comments make no difference to the statements. -/
def CommentsAreBlanks (content : String) : Prop :=
  (splitStatements content).map collapseBlanks =
    (splitStatements (withoutComments content)).map collapseBlanks

instance (content : String) : Decidable (CommentsAreBlanks content) :=
  inferInstanceAs (Decidable (_ = _))

/-- In no statement do comments that are ended by newlines stand directly
between two characters that are not white space. -/
def NothingGlued (content : String) : Prop :=
  ∀ seg ∈ segments [] (lex .plain content.toList), ¬ Glued isWhiteSpace seg

/-! ### The text without comments, read again -/

def Lexeme.uncomment : Lexeme → Lexeme
  | .comment => .char '\n'
  | lexeme => lexeme

/-- The context once the comment is deleted. -/
def Context.uncomment : Context → Context
  | .comment => .plain
  | context => context

theorem head_text_comment (s : List Char) :
    ∀ ch ∈ ((lex .comment s).flatMap Lexeme.text).head?, ch = '\n' := by
  induction s with
  | nil => exact fun ch h => absurd h (by simp [lex])
  | cons c s ih =>
      by_cases hc : c = '\n'
      · subst hc
        rw [lex]
        exact fun ch h => (Option.some.inj h).symm
      · rw [lex]
        · exact ih
        · exact hc

/-- Outside a comment, the text goes on with the character it went on with, or
with a newline. -/
theorem head_text {context : Context} (hcontext : context.uncomment = context) (s : List Char) :
    ∀ ch ∈ ((lex context s).flatMap Lexeme.text).head?, ch = '\n' ∨ s.head? = some ch := by
  induction context, s using lex.induct with
  | case1 context => exact fun ch h => absurd h (by simp [lex])
  | case2 s => exact fun ch h => .inr h
  | case3 c s hclose =>
      rw [lex]
      · exact fun ch h => .inr h
      · exact hclose
  | case4 s => exact fun ch h => .inr h
  | case5 s hescaped =>
      rw [lex]
      · exact fun ch h => .inr h
      · exact hescaped
  | case6 c s hescaped hclose =>
      rw [lex]
      · exact fun ch h => .inr h
      all_goals assumption
  | case7 s => cases hcontext
  | case8 c s => cases hcontext
  | case9 s => exact fun ch h => .inr h
  | case10 s => exact fun ch h => .inr h
  | case11 s => exact fun ch h => .inl (head_text_comment s ch h)
  | case12 s => exact fun ch h => .inr h
  | case13 c s hdollar hquote hcomment hend =>
      rw [lex]
      · exact fun ch h => .inr h
      all_goals assumption

/-- A character that does not come next does not come next without the comments either. -/
theorem head_text_ne {context : Context} (hcontext : context.uncomment = context) {s : List Char}
    {c : Char} (hc : c ≠ '\n') (h : ∀ s', s = c :: s' → False) :
    ((lex context s).flatMap Lexeme.text).head? ≠ some c := by
  intro hhead
  obtain heq | hs := head_text hcontext s c hhead
  · exact hc heq
  · obtain ⟨s', hs'⟩ := List.head?_eq_some_iff.mp hs
    exact h s' hs'

theorem lex_withoutComments (context : Context) (s : List Char) :
    lex context.uncomment ((lex context s).flatMap Lexeme.text) =
      (lex context s).map Lexeme.uncomment := by
  -- Read again, each lexeme is itself, since the text behind it begins no differently.
  induction context, s using lex.induct with
  | case1 context => rw [lex, List.flatMap_nil, lex, List.map_nil]
  | case2 s ih => exact congrArg (.char '$' :: .char '$' :: ·) ih
  | case3 ch s hclose ih =>
      have hnext : ch = '$' → ((lex .dollarQuote s).flatMap Lexeme.text).head? ≠ some '$' :=
        fun heq => head_text_ne rfl (by decide) fun s' => hclose s' heq
      rw [lex]
      · exact (lex_dollarQuote_char hnext).trans (congrArg (.char ch :: ·) ih)
      · exact hclose
  | case4 s ih => exact congrArg (.char '\'' :: .char '\'' :: ·) ih
  | case5 s hescaped ih =>
      have hnext : ((lex .plain s).flatMap Lexeme.text).head? ≠ some '\'' :=
        head_text_ne rfl (by decide) hescaped
      rw [lex]
      · exact (lex_literal_end hnext).trans (congrArg (.char '\'' :: ·) ih)
      · exact hescaped
  | case6 ch s hescaped hclose ih =>
      rw [lex]
      · exact (lex_literal_char hclose).trans (congrArg (.char ch :: ·) ih)
      all_goals assumption
  | case7 s ih => exact congrArg (.char '\n' :: ·) ih
  | case8 c s hend ih =>
      rw [lex]
      · exact ih
      · exact hend
  | case9 s ih => exact congrArg (.char '$' :: .char '$' :: ·) ih
  | case10 s ih => exact congrArg (.char '\'' :: ·) ih
  | case11 s ih => exact ih
  | case12 s ih => exact congrArg (.terminator :: ·) ih
  | case13 ch s hdollar hquote hcomment hend ih =>
      have hdollar' : ch = '$' → ((lex .plain s).flatMap Lexeme.text).head? ≠ some '$' :=
        fun heq => head_text_ne rfl (by decide) fun s' => hdollar s' heq
      have hcomment' : ch = '-' → ((lex .plain s).flatMap Lexeme.text).head? ≠ some '-' :=
        fun heq => head_text_ne rfl (by decide) fun s' => hcomment s' heq
      rw [lex]
      · exact (lex_char hquote hend hdollar' hcomment').trans (congrArg (.char ch :: ·) ih)
      all_goals assumption

/-! ### Both ways of cutting the text into statements -/

/-- Without the comments there is a newline for each of them. -/
theorem segments_uncomment (seg : List (Option Char)) (lexemes : List Lexeme) :
    segments ((fill '\n' seg).map some) (lexemes.map Lexeme.uncomment) =
      (segments seg lexemes).map fun seg => (fill '\n' seg).map some := by
  have hsnoc (seg : List (Option Char)) (x : Option Char) :
      (fill '\n' seg).map some ++ [some (x.getD '\n')] = (fill '\n' (seg ++ [x])).map some := by
    simp only [fill, List.map_append, List.map_singleton]
  induction lexemes generalizing seg with
  | nil => rfl
  | cons lexeme lexemes ih =>
      cases lexeme with
      | char ch =>
          rw [List.map_cons, segments, ← ih, ← hsnoc]
          rfl
      | comment =>
          rw [List.map_cons, segments, ← ih, ← hsnoc]
          rfl
      | terminator =>
          rw [List.map_cons, segments, List.map_cons, ← ih]
          rfl

theorem splitFrom_withoutComments (s : List Char) :
    splitFrom .plain [] ((lex .plain s).flatMap Lexeme.text) =
      (segments [] (lex .plain s)).flatMap fun seg => pushTrimmed (fill '\n' seg) := by
  have hlex :
      lex .plain ((lex .plain s).flatMap Lexeme.text) = (lex .plain s).map Lexeme.uncomment :=
    lex_withoutComments .plain s
  rw [splitFrom_eq .plain List.reduceOption_nil, hlex]
  show (segments ((fill '\n' []).map some) _).flatMap _ = _
  rw [segments_uncomment, List.flatMap_map]
  simp only [reduceOption_map_some]

theorem flatMap_eq_flatMap_iff {α β : Type} {f g : α → List β} {l : List α}
    (h : ∀ a ∈ l, (f a).length = (g a).length) :
    l.flatMap f = l.flatMap g ↔ ∀ a ∈ l, f a = g a := by
  induction l with
  | nil => simp
  | cons a l ih =>
      obtain ⟨ha, hl⟩ := List.forall_mem_cons.mp h
      rw [List.flatMap_cons, List.flatMap_cons, List.forall_mem_cons, ← ih hl]
      exact ⟨fun heq => List.append_inj heq ha, fun heq => congrArg₂ (· ++ ·) heq.1 heq.2⟩

theorem isWhiteSpace_space : isWhiteSpace ' ' = true := by decide

theorem isWhiteSpace_newline : isWhiteSpace '\n' = true := by decide

theorem length_pushTrimmed_fill (seg : List (Option Char)) :
    (pushTrimmed seg.reduceOption).length = (pushTrimmed (fill '\n' seg)).length := by
  have hnil := trim_fill_eq_nil_iff isWhiteSpace_newline seg
  rw [pushTrimmed, pushTrimmed]
  by_cases h : trim isWhiteSpace seg.reduceOption = []
  · rw [if_pos h, if_pos (hnil.mpr h)]
  · rw [if_neg h, if_neg (fun hfill => h (hnil.mp hfill))]
    rfl

/-- One statement, read with its comments and without them. -/
theorem pushTrimmed_fill_iff (seg : List (Option Char)) :
    (pushTrimmed seg.reduceOption).map (collapse isWhiteSpace ' ') =
        (pushTrimmed (fill '\n' seg)).map (collapse isWhiteSpace ' ') ↔
      ¬ Glued isWhiteSpace seg := by
  have hnil := trim_fill_eq_nil_iff isWhiteSpace_newline seg
  rw [← collapse_fill_iff isWhiteSpace_space isWhiteSpace_newline seg, pushTrimmed, pushTrimmed]
  by_cases h : trim isWhiteSpace seg.reduceOption = []
  · rw [if_pos h, if_pos (hnil.mpr h), h, hnil.mpr h]
    exact iff_of_true rfl rfl
  · rw [if_neg h, if_neg (fun hfill => h (hnil.mp hfill)), List.map_singleton, List.map_singleton,
      List.singleton_inj]
    exact eq_comm

theorem map_collapseBlanks (statements : List (List Char)) :
    (statements.map String.ofList).map collapseBlanks =
      (statements.map (collapse isWhiteSpace ' ')).map String.ofList := by
  rw [List.map_map, List.map_map]
  refine List.map_congr_left fun statement _ => ?_
  show String.ofList (collapse isWhiteSpace ' ' (String.ofList statement).toList) = _
  rw [String.toList_ofList]
  rfl

/-- Where a comment counts as white space, and where it does not. -/
theorem commentsAreBlanks_iff (content : String) :
    CommentsAreBlanks content ↔ NothingGlued content := by
  have hinj : Function.Injective (List.map String.ofList) :=
    List.map_injective_iff.mpr fun _ _ h => String.ofList_injective h
  rw [CommentsAreBlanks, splitStatements, splitStatements, map_collapseBlanks, map_collapseBlanks,
    hinj.eq_iff, withoutComments, String.toList_ofList, splitFrom_withoutComments,
    splitFrom_eq .plain List.reduceOption_nil, List.map_flatMap, List.map_flatMap,
    flatMap_eq_flatMap_iff]
  · exact forall₂_congr fun seg _ => pushTrimmed_fill_iff seg
  · intro seg _
    rw [List.length_map, List.length_map]
    exact length_pushTrimmed_fill seg

/-- The comment is gone, and so is what kept the column and the keyword apart. -/
theorem comment_glues : ¬ ∀ content, CommentsAreBlanks content := by
  intro h
  exact absurd (h "SELECT carry_m--in metres\nFROM shots;\n") (by decide)

end PureplayIngest.Shared.Kysely
