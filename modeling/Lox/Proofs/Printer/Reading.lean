import Lox.Proofs.Lines.Relabel
import Lox.Proofs.Printer.Form
import Lox.Proofs.Printer.Numeral
import Lox.Proofs.Token.Rescan

/-!
# Trees from their prefix forms

`Form.expr` and `Form.stmt` give back the tree that a prefix form stands for, with all its tokens on
line 0 and empty slots. A number is looked up by its text among the given ones. Forms of no tree
give something, and it is no matter what.
-/

set_option autoImplicit false

namespace Lox.Form

/-- The token with this spelling. -/
def token (w : String) : Token :=
  match Lexer.tokens (Lexer.scan w) with
  | t :: _ => { t with line := 0 }
  | [] => ⟨.eof, w, 0⟩

/-- The constant or the variable that a token of this kind is. -/
def leaf (t : Token) : TokenKind → Expr
  | .keyword .trueWord => .literal .true
  | .keyword .falseWord => .literal .false
  | .keyword .nilWord => .literal .nil
  | .keyword .thisWord => .this t none
  | _ => .variable t none

/-- The constant or the variable that a word is. -/
def atom (numbers : List Float) (w : String) : Expr :=
  match numbers.find? fun x => Number.literal x == w with
  | some x => .literal (.number x)
  | none => leaf (token w) (token w).kind

/-- The expression with this word at its head and these parts. -/
def compound : String → List Expr → Expr
  | "group", [inner] => .grouping inner
  | "call", callee :: arguments => .call callee (token ")") arguments
  | "super", [.variable method _] => .super (token "super") method none
  | "=", [.variable name _, value] => .assign name value none
  | "=", [.get object name, value] => .set object name value
  | ".", [object, .variable name _] => .get object name
  | "or", [left, right] => .logical left (token "or") right
  | "and", [left, right] => .logical left (token "and") right
  | op, [right] => .unary (token op) right
  | op, [left, right] => .binary left (token op) right
  | _, _ => .literal .nil

section

variable (numbers : List Float)

mutual

/-- The expression with this form. -/
def expr : Form → Expr
  | .word w => atom numbers w
  | .list head items => compound head (exprs items)
  | .applied _ _ => .literal .nil

def exprs : List Form → List Expr
  | [] => []
  | f :: fs => expr f :: exprs fs

end

/-- The methods among declarations. -/
def methods (ss : List Stmt) : List FunctionDecl :=
  ss.filterMap fun
    | .function decl => some decl
    | _ => none

/-- The statement with this word at its head; `parts` has a statement for each item that is one. -/
def sentence (head : String) (items : List Form) (parts : List Stmt) : Stmt :=
  match head, items, parts with
  | ";", [value], _ => .expression (expr numbers value)
  | "print", [value], _ => .print (token "print") (expr numbers value)
  | "var", [.word name], _ => .var (token name) none
  | "var", [.word name, initializer], _ => .var (token name) (some (expr numbers initializer))
  | "block", _, body => .block body
  | "if", [condition, _], [_, thenBranch] =>
    .conditional (expr numbers condition) thenBranch none
  | "if-else", [condition, _, _], [_, thenBranch, elseBranch] =>
    .conditional (expr numbers condition) thenBranch (some elseBranch)
  | "while", [condition, _], [_, body] => .loop (expr numbers condition) body
  | "fun", .applied name params :: _, _ :: body =>
    .function ⟨token name, params.map token, body⟩
  | "return", [], _ => .ret (token "return") none
  | "return", [value], _ => .ret (token "return") (some (expr numbers value))
  | "class", .word name :: .word "<" :: superclass :: _, _ :: _ :: _ :: ss =>
    .classDecl (token name) (some (expr numbers superclass)) (methods ss)
  | "class", .word name :: _, _ :: ss => .classDecl (token name) none (methods ss)
  | _, _, _ => .block []

mutual

/-- The statement with this form. -/
def stmt : Form → Stmt
  | .list head items => sentence numbers head items (stmts items)
  | .word _ | .applied _ _ => .block []

def stmts : List Form → List Stmt
  | [] => []
  | f :: fs => stmt f :: stmts fs

end

end

theorem methods_map (fs : List FunctionDecl) : methods (fs.map .function) = fs := by
  unfold methods
  rw [List.filterMap_map]
  exact List.filterMap_some

/-! ## Tokens -/

open Lexer (Lexeme isNameStart isNameRest)

variable {t : Token}

/-- A token is determined by its lexeme, up to its line. -/
theorem token_lexeme (h : Lexeme (.token t.kind) t.lexeme.toList) :
    token t.lexeme = t.relabel fun _ => 0 := by
  have hnone : ∀ c ∈ ([] : List Char).head?, c = ' ' := nofun
  have hscan := Lexer.scanFrom_token h hnone 1
  rw [List.append_nil, String.ofList_toList] at hscan
  unfold token Lexer.scan
  rw [hscan]
  rfl

/-- A reserved word is spelled in one way. -/
theorem lexeme_keyword {k : Keyword} (h : Lexeme (.token t.kind) t.lexeme.toList)
    (hk : t.kind = .keyword k) : t.lexeme = k.spelling := by
  rw [hk] at h
  generalize hcs : t.lexeme.toList = cs at h
  cases h
  exact String.toList_inj.1 hcs

/-- A punctuation mark is spelled in one way. -/
theorem lexeme_punct {p : Punct} (h : Lexeme (.token t.kind) t.lexeme.toList)
    (hp : t.kind = .punct p) : t.lexeme = p.spelling := by
  rw [hp] at h
  generalize hcs : t.lexeme.toList = cs at h
  cases h
  exact String.toList_inj.1 hcs

theorem token_keyword {k : Keyword} (h : Lexeme (.token t.kind) t.lexeme.toList)
    (hk : t.kind = .keyword k) : token k.spelling = t.relabel fun _ => 0 := by
  rw [← lexeme_keyword h hk, token_lexeme h]

theorem token_punct {p : Punct} (h : Lexeme (.token t.kind) t.lexeme.toList)
    (hp : t.kind = .punct p) : token p.spelling = t.relabel fun _ => 0 := by
  rw [← lexeme_punct h hp, token_lexeme h]

/-- Identifiers and reserved words are made of letters, digits and underscores. -/
theorem exists_name (h : Lexeme (.token t.kind) t.lexeme.toList)
    (hk : t.kind = .identifier ∨ ∃ k, t.kind = .keyword k) :
    ∃ c cs, t.lexeme.toList = c :: cs ∧ isNameStart c = true ∧ ∀ d ∈ cs, isNameRest d = true := by
  generalize t.lexeme.toList = text at h
  rcases hk with hk | ⟨k, hk⟩
  · rw [hk] at h
    cases h with
    | identifier hc hcs _ => exact ⟨_, _, rfl, hc, hcs⟩
  · rw [hk] at h
    cases h
    exact Lexer.Keyword.spelling_cases k

theorem isWord_keyword (k : Keyword) : IsWord k.spelling := by
  cases k <;> simp [IsWord, isWordChar, Keyword.spelling]

theorem isWord_punct {p : Punct} (hp : p ≠ .leftParen ∧ p ≠ .rightParen) : IsWord p.spelling := by
  obtain ⟨hleft, hright⟩ := hp
  cases p with
  | leftParen => exact absurd rfl hleft
  | rightParen => exact absurd rfl hright
  | _ => simp [IsWord, isWordChar, Punct.spelling]

theorem isWordChar_of_isNameRest {c : Char} (h : isNameRest c = true) : isWordChar c = true := by
  unfold isWordChar
  simp only [Bool.and_eq_true, bne_iff_ne]
  refine ⟨⟨?_, ?_⟩, ?_⟩ <;> rintro rfl <;> exact absurd h (by decide)

theorem isWord_name (h : Lexeme (.token t.kind) t.lexeme.toList)
    (hk : t.kind = .identifier ∨ ∃ k, t.kind = .keyword k) : IsWord t.lexeme := by
  obtain ⟨c, cs, htext, hc, hcs⟩ := exists_name h hk
  rw [IsWord, htext]
  refine ⟨List.cons_ne_nil c cs, List.forall_mem_cons.2 ⟨?_, fun d hd => ?_⟩⟩
  · exact isWordChar_of_isNameRest (by simp [isNameRest, hc])
  · exact isWordChar_of_isNameRest (hcs d hd)

/-! ## Words -/

/-- Finite numbers that are told apart by what is printed for them. -/
structure Distinct (numbers : List Float) : Prop where
  finite : ∀ x ∈ numbers, Number.IsFinite x
  inj : ∀ x ∈ numbers, ∀ y ∈ numbers, Number.text x = Number.text y → x = y

variable {numbers : List Float}

theorem isWord_literal {x : Float} (hx : Number.IsFinite x) : IsWord (Number.literal x) := by
  refine ⟨Number.toList_literal_ne_nil hx, fun c hc => ?_⟩
  have hnumeral := Number.isNumeralChar_of_mem_literal hx c hc
  unfold isWordChar
  simp only [Bool.and_eq_true, bne_iff_ne]
  refine ⟨⟨?_, ?_⟩, ?_⟩ <;> rintro rfl <;> exact absurd hnumeral (by decide)

theorem atom_literal (hnumbers : Distinct numbers) {x : Float} (hx : x ∈ numbers) :
    atom numbers (Number.literal x) = .literal (.number x) := by
  unfold atom
  cases hfind : numbers.find? fun y => Number.literal y == Number.literal x with
  | none => exact absurd (List.find?_eq_none.1 hfind x hx) (by simp)
  | some y =>
    have hy := List.mem_of_find?_eq_some hfind
    have hliteral : Number.literal y = Number.literal x := by
      simpa using List.find?_some hfind
    have htext := Number.text_eq_of_literal_eq (hnumbers.finite y hy) (hnumbers.finite x hx)
      hliteral
    rw [hnumbers.inj y hy x hx htext]

/-- No number is listed like a name. -/
theorem atom_name (hnumbers : Distinct numbers) (h : Lexeme (.token t.kind) t.lexeme.toList)
    (hk : t.kind = .identifier ∨ ∃ k, t.kind = .keyword k) :
    atom numbers t.lexeme = leaf (t.relabel fun _ => 0) t.kind := by
  have hnone : (numbers.find? fun x => Number.literal x == t.lexeme) = none := by
    refine List.find?_eq_none.2 fun x hx hliteral => ?_
    obtain ⟨c, cs, htext, hc, -⟩ := exists_name h hk
    have hmem : c ∈ (Number.literal x).toList := by
      rw [beq_iff_eq.1 hliteral, htext]
      exact List.mem_cons_self
    have hnumeral := Number.isNumeralChar_of_mem_literal (hnumbers.finite x hx) c hmem
    unfold Number.isNumeralChar at hnumeral
    rw [Lexer.isNameStart_not_isDigit hc] at hnumeral
    simp only [Bool.false_or, Bool.or_eq_true, beq_iff_eq] at hnumeral
    rcases hnumeral with rfl | rfl <;> exact absurd hc (by decide)
  unfold atom
  rw [hnone, token_lexeme h]
  rfl

theorem atom_identifier (hnumbers : Distinct numbers)
    (h : Lexeme (.token t.kind) t.lexeme.toList) (hk : t.kind = .identifier) :
    atom numbers t.lexeme = .variable (t.relabel fun _ => 0) none := by
  rw [atom_name hnumbers h (.inl hk), hk]
  rfl

end Lox.Form
