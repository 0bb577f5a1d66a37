import Lox.CommandLine
import Lox.Proofs.Run.Lone
import Lox.Proofs.Run.Output
import Lox.Proofs.Session.Pieces

/-!
# Evaluating is printing

The command `evaluate` on an expression without `this` and `super` does what `run` does on the
program that prints the expression, its semicolon on a line of its own (`evaluate_as_print`).

* `scan_printing`: the program's tokens are the word `print`, the tokens of the expression and the
  semicolon.
* `resolve_free`: at the top level such an expression has no scoping errors, and its slots stay
  empty.
* `evaluate_plain`: with nothing declared, the expression ends and prints nothing by itself.
-/

set_option autoImplicit false

namespace Lox

open Grammar Parse

/-- The program that prints the value of an expression. -/
def printing (e : String) : String :=
  joinLines ("print " ++ e) ";"

/-! ## Scanning -/

/-- The word `print`, on the first line. -/
def printWord : Token := ⟨.keyword .printWord, "print", 1⟩

theorem scan_print (e : String) :
    Lexer.scan ("print " ++ e) = .ok printWord :: Lexer.scan e := by
  have hword : Lexer.scanFrom 1 ("print " ++ e).toList
      = .ok printWord :: Lexer.scanFrom 1 (' ' :: e.toList) := by
    rw [String.toList_append]
    exact Lexer.scanFrom_item rfl
  rw [Lexer.scan, hword, Lexer.scanFrom_skipped rfl]
  rfl

/-- A text without lexical errors, printed: `print`, its tokens and a semicolon. -/
theorem scan_printing {e : String} (he : Lexer.errors (Lexer.scan e) = []) :
    ∃ semicolon : Token, semicolon.kind = .punct .semicolon ∧
      beforeEnd (Lexer.tokens (Lexer.scan (printing e)))
        = printWord :: (beforeEnd (Lexer.tokens (Lexer.scan e)) ++ [semicolon]) ∧
      Lexer.errors (Lexer.scan (printing e)) = [] := by
  have hprint : Lexer.errors (Lexer.scan ("print " ++ e)) = [] := by
    rw [scan_print]
    exact he
  have hsemicolon : beforeEnd (Lexer.tokens (Lexer.scan ";"))
      = [⟨.punct .semicolon, ";", 1⟩] := by
    cbv
  refine ⟨⟨.punct .semicolon, ";", 1 + linesBefore ("print " ++ e)⟩, rfl, ?_, ?_⟩
  · rw [printing, beforeEnd_join hprint, scan_print, hsemicolon]
    rfl
  · obtain ⟨-, -, -, -, herrors⟩ := Lexer.tokens_join hprint ";"
    exact herrors.2 (by cbv)

/-! ## Reading -/

/-- There is no `this` and no `super` among the tokens. -/
def Selfless (ts : List Token) : Prop :=
  ∀ t ∈ ts, t.kind ≠ .keyword .thisWord ∧ t.kind ≠ .keyword .superWord

@[simp] theorem selfless_cons {t : Token} {ts : List Token} :
    Selfless (t :: ts) ↔
      (t.kind ≠ .keyword .thisWord ∧ t.kind ≠ .keyword .superWord) ∧ Selfless ts :=
  List.forall_mem_cons

@[simp] theorem selfless_append {us ts : List Token} :
    Selfless (us ++ ts) ↔ Selfless us ∧ Selfless ts :=
  List.forall_mem_append

mutual

/-- An expression with empty slots and without `this` and `super`. -/
def Expr.Free : Expr → Prop
  | .literal _ => True
  | .grouping inner => inner.Free
  | .unary _ right => right.Free
  | .binary left _ right => left.Free ∧ right.Free
  | .logical left _ right => left.Free ∧ right.Free
  | .variable _ depth => depth = none
  | .assign _ value depth => value.Free ∧ depth = none
  | .call callee _ arguments => callee.Free ∧ Expr.AllFree arguments
  | .get object _ => object.Free
  | .set object _ value => object.Free ∧ value.Free
  | .this _ _ => False
  | .super _ _ _ => False

def Expr.AllFree : List Expr → Prop
  | [] => True
  | e :: es => e.Free ∧ Expr.AllFree es

end

namespace Grammar

/-- The trees of a phrase are free. -/
def Phrase.Free : (p : Phrase) → p.Tree → Prop
  | .arguments, es => Expr.AllFree es
  | .expression, e | .level _, e | .operand _, e | .unary, e | .call, e | .primary, e => e.Free

theorem Derives.free {p : Phrase} {ts : List Token} {e : p.Tree} (h : Derives p ts e)
    (hts : Selfless ts) : p.Free e := by
  induction h with
  | assign _ _ _ ih =>
    simp only [selfless_cons] at hts
    exact ⟨ih hts.2.2, rfl⟩
  | set _ _ _ _ _ iho ihv =>
    simp only [selfless_append, selfless_cons] at hts
    exact ⟨iho hts.1, ihv hts.2.2.2.2⟩
  | disjunction _ ih | single _ ih | orOperand _ ih | andOperand _ ih | equalityOperand _ ih
  | comparisonOperand _ ih | termOperand _ ih | factorOperand _ ih | unaryCall _ ih
  | callPrimary _ ih => exact ih hts
  | logical _ _ _ _ ih₁ ih₂ | binary _ _ _ _ ih₁ ih₂ =>
    simp only [selfless_append, selfless_cons] at hts
    exact ⟨ih₁ hts.1, ih₂ hts.2.2⟩
  | unary _ _ ih =>
    simp only [selfless_cons] at hts
    exact ih hts.2
  | callEmpty _ _ _ ih =>
    simp only [selfless_append] at hts
    exact ⟨ih hts.1, trivial⟩
  | call _ _ _ _ _ ih iha =>
    simp only [selfless_append, selfless_cons] at hts
    exact ⟨ih hts.1, iha hts.2.2.1⟩
  | get _ _ _ ih =>
    simp only [selfless_append] at hts
    exact ih hts.1
  | argument _ ih => exact ⟨ih hts, trivial⟩
  | argumentCons _ _ _ ih ihs =>
    simp only [selfless_append, selfless_cons] at hts
    exact ⟨ih hts.1, ihs hts.2.2⟩
  | number | string | true | false | nil => trivial
  | this hk =>
    simp only [selfless_cons] at hts
    exact absurd hk hts.1.1
  | identifier => rfl
  | grouping _ _ _ ih =>
    simp only [selfless_append, selfless_cons] at hts
    exact ih hts.2.1
  | super hk =>
    simp only [selfless_cons] at hts
    exact absurd hk hts.1.2

/-- What is read as a lone expression derives it, up to the first end token. -/
theorem derives_of_parseExpression {ts : List Token} {e : Expr}
    (h : parseExpression ts = .ok e) : Derives .expression (beforeEnd ts) e := by
  simp only [parseExpression, readAll] at h
  split at h <;> cases h
  rename_i rest hread
  have hread : Reads (wholeExpression _) _ _ _ := hread
  rw [wholeExpression, reads_bind] at hread
  obtain ⟨value, mid, hvalue, hread⟩ := hread
  rw [reads_bind] at hread
  obtain ⟨next, mid', hpeek, hread⟩ := hread
  obtain ⟨rfl, rfl⟩ := reads_peek.1 hpeek
  cases mid with
  | nil =>
    obtain ⟨rfl, -⟩ := reads_pure.1 hread
    obtain ⟨used, hused, hderives⟩ := expression_sound _ hvalue
    rw [hused, List.append_nil]
    exact hderives
  | cons t mid => exact absurd hread not_reads_fail

end Grammar

/-! ## Scoping -/

mutual

/-- At the top level a free expression stays as it is. -/
theorem Expr.Free.resolve (globals : List String) : ∀ {e : Expr}, e.Free →
    e.resolve (.top globals) .outside = ⟨e, []⟩
  | .literal _, _ => rfl
  | .grouping inner, h | .unary _ inner, h | .get inner _, h => by
    simp only [Expr.Free] at h
    simp only [Expr.resolve, Expr.Free.resolve globals (e := inner) h]
    rfl
  | .binary left _ right, h | .logical left _ right, h | .set left _ right, h => by
    simp only [Expr.Free] at h
    simp only [Expr.resolve, Expr.Free.resolve globals (e := left) h.1,
      Expr.Free.resolve globals (e := right) h.2]
    rfl
  | .variable _ _, h => by
    cases h
    rfl
  | .assign _ value _, h => by
    simp only [Expr.Free] at h
    obtain ⟨h, rfl⟩ := h
    simp only [Expr.resolve, Expr.Free.resolve globals (e := value) h]
    rfl
  | .call callee _ arguments, h => by
    simp only [Expr.Free] at h
    simp only [Expr.resolve, Expr.Free.resolve globals (e := callee) h.1,
      @Expr.AllFree.resolve globals arguments h.2]
    rfl
  | .this _ _, h | .super _ _ _, h => by
    simp only [Expr.Free] at h

theorem Expr.AllFree.resolve (globals : List String) : ∀ {es : List Expr}, Expr.AllFree es →
    Expr.resolveAll (.top globals) .outside es = ⟨es, []⟩
  | [], _ => rfl
  | e :: es, h => by
    simp only [Expr.AllFree] at h
    simp only [Expr.resolveAll, Expr.Free.resolve globals (e := e) h.1,
      @Expr.AllFree.resolve globals es h.2]
    rfl

end

/-- A text that is a free expression, printed, is accepted as the statement that prints it. -/
theorem compile_printing {source : String} {e : Expr} (globals : List String)
    (hscan : Lexer.errors (Lexer.scan source) = [])
    (hparse : parseExpression (Lexer.tokens (Lexer.scan source)) = .ok e)
    (hself : Selfless (Lexer.tokens (Lexer.scan source))) :
    compile globals (printing source) = .ok [.print printWord e] := by
  have hderives := derives_of_parseExpression hparse
  have hfree : e.Free := hderives.free fun t ht =>
    hself t (List.takeWhile_sublist _ |>.subset ht)
  obtain ⟨semicolon, hsemicolon, htokens, herrors⟩ := scan_printing hscan
  have hprogram : DerivesProgram (beforeEnd (Lexer.tokens (Lexer.scan (printing source))))
      [.print printWord e] := by
    rw [htokens, ← List.append_nil (printWord :: _)]
    exact .declarationsCons (.statement (.print rfl hderives hsemicolon)) .declarationsNil
  have hresolve : resolve globals [.print printWord e]
      = ⟨([.print printWord e], .top globals), []⟩ := by
    simp only [Lox.resolve, Stmt.resolveAll, Stmt.resolve]
    rw [show Context.top.enclosingClass = .outside from rfl, hfree.resolve]
    rfl
  exact compile_ok_iff.2 ⟨_, readSource_ok_iff.2 ⟨parse_ok_iff.2 hprogram, herrors⟩,
    by rw [hresolve], by rw [hresolve]⟩

/-! ## Printing -/

/-- The statement that prints an expression ends as the expression does, and prints its value. -/
theorem interpret_print (fuel : Nat) (keyword : Token) (e : Expr) {m : Machine} (hm : m.Plain)
    (hfuel : sizeOf e ≤ fuel) :
    interpret (fuel + 2) [.print keyword e] m = match evaluate fuel e m with
      | .ok value m =>
        .ok () { m with output := m.output.printed (m.display value ++ "\n").toUTF8 }
      | .error error m => .error error m
      | .outOfFuel => .outOfFuel := by
  have hplain := evaluate_plain fuel e m hfuel hm
  rw [interpret_eq]
  simp only [executeAll, execute, bind, Eval.bind]
  cases hr : evaluate fuel e m with
  | ok value m' =>
    rw [hr] at hplain
    have hopen : m'.output.NeverFails := by
      rw [hplain.output]
      exact Output.unlimited_neverFails
    have hwrite : m'.output.writeLine (m'.pieces value)
        = (m'.output.printed (m'.display value ++ "\n").toUTF8, true) := by
      rw [Output.writeLine, hopen.write, String.join_append]
      rfl
    simp only [Eval.printLine, hwrite]
    rfl
  | error e m' => rfl
  | outOfFuel => rfl

namespace CommandLine

/-! ## Reports -/

/-- With enough fuel the command gives this report, and never another one. -/
def Reports (command : Nat → Option Report) (r : Report) : Prop :=
  (∃ n, ∀ fuel ≥ n, command fuel = some r) ∧ ∀ fuel r', command fuel = some r' → r' = r

/-- A command that gives the same with more fuel has one report. -/
theorem Reports.of_le {command : Nat → Option Report}
    (hmore : ∀ {fuel fuel' : Nat} {r : Report}, fuel ≤ fuel' → command fuel = some r →
      command fuel' = some r) {n : Nat} {r : Report} (hr : command n = some r) :
    Reports command r := by
  refine ⟨⟨n, fun fuel hfuel => hmore hfuel hr⟩, fun fuel r' hr' => ?_⟩
  have hlast := hmore (Nat.le_max_left n fuel) hr
  have hlast' := hmore (Nat.le_max_right n fuel) hr'
  exact Option.some.inj (hlast'.symm.trans hlast)

theorem evaluate_of_le {clock : Clock} {source : String} {fuel fuel' : Nat} {r : Report}
    (hfuel : fuel ≤ fuel') (hr : evaluate fuel clock source = some r) :
    evaluate fuel' clock source = some r := by
  obtain ⟨more, rfl⟩ := Nat.exists_eq_add_of_le hfuel
  unfold evaluate at hr ⊢
  dsimp only at hr ⊢
  split at hr
  · split at hr
    · rename_i e _
      rcases evaluate_lasts_add fuel more e (.start .unlimited clock) with hout | hsame
      · rw [hout] at hr
        cases hr
      · rw [hsame]
        exact hr
    · exact hr
  · exact hr

theorem run_of_le {clock : Clock} {source : String} {fuel fuel' : Nat} {r : Report}
    (hfuel : fuel ≤ fuel') (hr : run fuel clock source = some r) :
    run fuel' clock source = some r := by
  unfold run at hr ⊢
  obtain ⟨⟨outcome, s⟩, hrun, hreport⟩ := Option.bind_eq_some_iff.1 hr
  exact Option.bind_eq_some_iff.2 ⟨⟨outcome, s⟩, Session.run_of_le hrun hfuel, hreport⟩

/-- A text that is an expression is evaluated, with fuel for the size of the expression. -/
theorem evaluate_ends {source : String} {e : Expr}
    (hscan : Lexer.errors (Lexer.scan source) = [])
    (hparse : parseExpression (Lexer.tokens (Lexer.scan source)) = .ok e) (clock : Clock) :
    ∃ r, evaluate (sizeOf e) clock source = some r := by
  have hends := evaluate_plain (sizeOf e) e _ le_rfl (Machine.start_plain clock)
  simp only [evaluate, hscan, hparse]
  cases hr : Lox.evaluate (sizeOf e) e (.start .unlimited clock) with
  | ok value m => exact ⟨_, rfl⟩
  | error error m => exact ⟨_, rfl⟩
  | outOfFuel =>
    rw [hr] at hends
    exact hends.elim

/-- Its value is printed in the same way by the program that prints it. -/
theorem run_printing {source : String} {e : Expr}
    (hscan : Lexer.errors (Lexer.scan source) = [])
    (hparse : parseExpression (Lexer.tokens (Lexer.scan source)) = .ok e)
    (hself : Selfless (Lexer.tokens (Lexer.scan source))) (clock : Clock) :
    run (sizeOf e + 2) clock (printing source) = evaluate (sizeOf e) clock source := by
  have hstart := Machine.start_plain clock
  have hcompile : (Session.start .unlimited clock).compile (printing source)
      = .ok [.print printWord e] := compile_printing _ hscan hparse hself
  have hprint : Lox.interpret (sizeOf e + 2) [.print printWord e] (.start .unlimited clock) = _ :=
    interpret_print (sizeOf e) printWord e hstart le_rfl
  rw [evaluate, run, Session.run_of_compile hcompile, Session.interpret, Session.start, hprint]
  simp only [hscan, hparse]
  cases hr : Lox.evaluate (sizeOf e) e (.start .unlimited clock) with
  | ok value m => rfl
  | error error m => rfl
  | outOfFuel => rfl

/-- **Evaluating is printing.** On a file with an expression that holds no `this` and no `super`,
the command `evaluate` has one report. It is also the one report of `run` on a file with the program
that prints the expression, its semicolon on a new line. -/
theorem evaluate_as_print {source : String} {e : Expr}
    (hscan : Lexer.errors (Lexer.scan source) = [])
    (hparse : parseExpression (Lexer.tokens (Lexer.scan source)) = .ok e)
    (hself : ∀ t ∈ Lexer.tokens (Lexer.scan source),
      t.kind ≠ .keyword .thisWord ∧ t.kind ≠ .keyword .superWord)
    {bytes bytes' : Except FileError (List UInt8)} (hbytes : sourceText bytes = .ok source)
    (hbytes' : sourceText bytes' = .ok ("print " ++ source ++ "\n;"))
    (clock : Clock) (path path' stdin stdin' : String) :
    ∃ r, Reports (fun fuel => report fuel clock (.evaluate path) bytes stdin) r ∧
      Reports (fun fuel => report fuel clock (.run path') bytes' stdin') r := by
  obtain ⟨r, hr⟩ := evaluate_ends hscan hparse clock
  have htext : "print " ++ source ++ "\n;" = printing source :=
    (@String.append_assoc ("print " ++ source) "\n" ";").symm
  have hprint : run (sizeOf e + 2) clock (printing source) = some r := by
    rw [run_printing hscan hparse hself]
    exact hr
  simp only [report, hbytes, hbytes', htext]
  exact ⟨r, .of_le evaluate_of_le hr, .of_le run_of_le hprint⟩

/-- An expression that ends in a comment. -/
theorem evaluate_as_print_comment :
    Reports (fun fuel => report fuel (.stopped 0) (.evaluate "e.lox")
      (.ok "\"a\" + \"b\" // joined".toUTF8.toList) "") ⟨0, "ab\n".toUTF8, ""⟩ ∧
    Reports (fun fuel => report fuel (.stopped 0) (.run "p.lox")
      (.ok "print \"a\" + \"b\" // joined\n;".toUTF8.toList) "") ⟨0, "ab\n".toUTF8, ""⟩ := by
  have htokens : Lexer.tokens (Lexer.scan "\"a\" + \"b\" // joined")
      = [⟨.string "a", "\"a\"", 1⟩, ⟨.punct .plus, "+", 1⟩, ⟨.string "b", "\"b\"", 1⟩,
        ⟨.eof, "", 1⟩] := by
    cbv
  have hparse : parseExpression (Lexer.tokens (Lexer.scan "\"a\" + \"b\" // joined"))
      = .ok (.binary (.literal (.string "a")) ⟨.punct .plus, "+", 1⟩ (.literal (.string "b"))) := by
    cbv
  have hbytes : sourceText (.ok "\"a\" + \"b\" // joined".toUTF8.toList)
      = .ok "\"a\" + \"b\" // joined" := by
    cbv
  have hbytes' : sourceText (.ok "print \"a\" + \"b\" // joined\n;".toUTF8.toList)
      = .ok ("print " ++ "\"a\" + \"b\" // joined" ++ "\n;") := by
    cbv
  obtain ⟨r, hevaluate, hrun⟩ := evaluate_as_print (by cbv) hparse (by rw [htokens]; decide) hbytes
    hbytes' (.stopped 0) "e.lox" "p.lox" "" ""
  have hr : report 10 (.stopped 0) (.evaluate "e.lox")
      (.ok "\"a\" + \"b\" // joined".toUTF8.toList) "" = some ⟨0, "ab\n".toUTF8, ""⟩ := by
    cbv
  cases hevaluate.2 10 _ hr
  exact ⟨hevaluate, hrun⟩

end CommandLine
end Lox
