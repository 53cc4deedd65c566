/-
Serpent.Proofs.SourceForm — the source form of a program holds its tokens.

Every statement and every definition has its tokens, with the marks of lines and blocks. The lines
of the source form are laid out as these tokens, so the whole text is cut into them.

  §1 Tokens of statements and definitions
  §2 Tokens within a line
  §3 Lines of statements
  §4 Lines of definitions and programs
-/
import Serpent.Proofs.Blocks

namespace Serpent

open LayoutState

/-! ## §1 Tokens of statements and definitions -/

/-- The tokens of an indented block behind a colon. -/
def suite (ts : List Token) : List Token :=
  .symbol .colon :: .newline :: .indent :: ts ++ [.dedent]

/-- The tokens of the target of an assignment. -/
def Target.tokens : Target → List Token
  | .var x => [.name x]
  | .member o m => parenthesizedTokens o.isOpenReceiver o.tokens ++ [.symbol .dot, .name m]

namespace Stmt

mutual

/-- The tokens of a statement. -/
def tokens : Stmt → List Token
  | .pass => [.keyword .pass, .newline]
  | .assign t e => t.tokens ++ .symbol .assign :: e.tokens ++ [.newline]
  | .expr e => e.tokens ++ [.newline]
  | .return_ e => .keyword .return_ :: e.tokens ++ [.newline]
  | .while_ c body => .keyword .while_ :: c.tokens ++ suite (listTokens body)
  | .if_ c body elif orElse =>
    .keyword .if_ :: c.tokens ++ suite (listTokens body) ++ elifTokens elif ++ elseTokens orElse

/-- The tokens of statements that follow each other. -/
def listTokens : List Stmt → List Token
  | [] => []
  | s :: ss => tokens s ++ listTokens ss

/-- The tokens of the `elif` clause, if there is one. -/
def elifTokens : Option (Expr × List Stmt) → List Token
  | none => []
  | some (c, body) => .keyword .elif :: c.tokens ++ suite (listTokens body)

/-- The tokens of the `else` clause, if there is one. -/
def elseTokens : Option (List Stmt) → List Token
  | none => []
  | some body => .keyword .else_ :: suite (listTokens body)

end

end Stmt

/-- The tokens of a variable definition, without the end of its line. -/
def VarDef.tokens (v : VarDef) : List Token :=
  [.name v.name, .symbol .colon, v.ty.token, .symbol .assign, v.value.token]

/-- The tokens of a parameter. -/
def Param.tokens (p : Param) : List Token := [.name p.name, .symbol .colon, p.ty.token]

/-- The tokens of a result type, which are none if it is `None`. -/
def resultTokens (ty : Ty) : List Token :=
  if ty = .none then [] else [.symbol .arrow, ty.token]

/-- The tokens of the first line of a function, up to its colon. -/
def FunDef.headerTokens (f : FunDef) : List Token :=
  .keyword .def_ :: .name f.name :: .symbol .lparen :: commas (f.params.map Param.tokens) ++
    .symbol .rparen :: resultTokens f.result

/-- The tokens of a function. -/
def FunDef.tokens (f : FunDef) : List Token :=
  f.headerTokens ++
    suite (f.locals.flatMap (fun v => v.tokens ++ [.newline]) ++ Stmt.listTokens f.body)

/-- The tokens of the members of a class; a class without members has `pass`. -/
def ClassDef.memberTokens (c : ClassDef) : List Token :=
  if c.fields = [] ∧ c.methods = [] then [.keyword .pass, .newline]
  else c.fields.flatMap (fun v => v.tokens ++ [.newline]) ++ c.methods.flatMap FunDef.tokens

/-- The tokens of the first line of a class, up to its colon. -/
def ClassDef.headerTokens (c : ClassDef) : List Token :=
  [.keyword .class_, .name c.name, .symbol .lparen, .name c.parent, .symbol .rparen]

/-- The tokens of a class. -/
def ClassDef.tokens (c : ClassDef) : List Token := c.headerTokens ++ suite c.memberTokens

/-- The tokens of a definition. -/
def Def.tokens : Def → List Token
  | .var v => v.tokens ++ [.newline]
  | .function f => f.tokens
  | .class_ c => c.tokens

/-- The tokens of a program. -/
def Program.tokens (p : Program) : List Token :=
  p.defs.flatMap Def.tokens ++ Stmt.listTokens p.stmts

/-! ## §2 Tokens within a line -/

theorem Inline.append {ts us : List Token} (first : Inline ts) (second : Inline us) :
    Inline (ts ++ us) where
  no_newline t ht := (List.mem_append.1 ht).elim (first.no_newline t) (second.no_newline t)
  balanced n := by rw [List.foldl_append, first.balanced, second.balanced]

theorem inline_nil : Inline [] := ⟨by simp, fun _ => rfl⟩

/-- A token that is no parenthesis and no end of a line. -/
theorem inline_token {t : Token} (newline : t ≠ .newline) (depth : ∀ n, depthAfter n t = n) :
    Inline [t] :=
  ⟨by simpa using newline, depth⟩

theorem Inline.cons {t : Token} {ts : List Token} (first : Inline [t]) (more : Inline ts) :
    Inline (t :: ts) :=
  first.append more

theorem Inline.parens {ts : List Token} (h : Inline ts) :
    Inline (.symbol .lparen :: ts ++ [Token.symbol .rparen]) where
  no_newline t ht := by
    simp only [List.cons_append, List.mem_cons, List.mem_append, List.not_mem_nil, or_false] at ht
    rcases ht with rfl | ht | rfl
    · simp
    · exact h.no_newline t ht
    · simp
  balanced n := by
    rw [List.cons_append, List.foldl_cons, List.foldl_append, h.balanced]
    rfl

theorem Inline.parenthesized {ts : List Token} (h : Inline ts) (needed : Bool) :
    Inline (parenthesizedTokens needed ts) := by
  cases needed with
  | false => exact h
  | true => exact h.parens

theorem inline_commas {tss : List (List Token)} (h : ∀ ts ∈ tss, Inline ts) :
    Inline (commas tss) := by
  induction tss with
  | nil => exact inline_nil
  | cons ts tss ih =>
    have more := ih fun us hus => h us (by simp [hus])
    cases tss with
    | nil => simpa [commas] using h ts (by simp)
    | cons us tss =>
      rw [commas, List.intercalate_cons_cons]
      exact ((h ts (by simp)).append (inline_token (by simp) fun _ => rfl)).append more

theorem inline_name (x : String) : Inline [.name x] := inline_token (by simp) fun _ => rfl

theorem inline_keyword (k : Keyword) : Inline [.keyword k] := inline_token (by simp) fun _ => rfl

theorem inline_dot : Inline [.symbol .dot] := inline_token (by simp) fun _ => rfl

theorem inline_colon : Inline [.symbol .colon] := inline_token (by simp) fun _ => rfl

theorem inline_assign : Inline [.symbol .assign] := inline_token (by simp) fun _ => rfl

theorem inline_literal (v : Literal) : Inline [v.token] := by
  cases v with
  | bool b => cases b <;> exact inline_keyword _
  | none => exact inline_keyword _
  | number n => exact inline_token (by simp [Literal.token]) fun _ => rfl

theorem inline_type (ty : Ty) : Inline [ty.token] := by
  cases ty with
  | none => exact inline_keyword _
  | _ => exact inline_name _

theorem Expr.inline (e : Expr) : Inline e.tokens := by
  induction e with
  | literal ty v => exact inline_literal v
  | var ty x => exact inline_name x
  | unary ty op e ih =>
    refine Inline.cons ?_ (ih.parenthesized _)
    cases op <;> exact inline_token (by simp [UnOp.token]) fun _ => rfl
  | binary ty op l r ihl ihr =>
    refine (ihl.parenthesized _).append (Inline.cons ?_ (ihr.parenthesized _))
    cases op <;> exact inline_token (by simp [BinOp.token]) fun _ => rfl
  | call ty f args ih =>
    refine (inline_name f).cons (Inline.parens (inline_commas ?_))
    simpa [tokenLists_eq_map] using ih
  | field ty o m ih =>
    exact (ih.parenthesized _).append (inline_dot.cons (inline_name m))
  | method ty o m args ih ihargs =>
    have arguments : Inline (commas (tokenLists args)) :=
      inline_commas (by simpa [tokenLists_eq_map] using ihargs)
    simpa [tokens] using
      (ih.parenthesized _).append (inline_dot.cons ((inline_name m).cons arguments.parens))

theorem Target.inline (t : Target) : Inline t.tokens := by
  cases t with
  | var x => exact inline_name x
  | member o m => exact (o.inline.parenthesized _).append (inline_dot.cons (inline_name m))

/-! ## §3 Lines of statements -/

theorem scans_keyword_blank (k : Keyword) {rest : List Char} :
    Scans (k.text.toList ++ [' ']) [.keyword k] rest :=
  scans_blank (scans_keyword k (separated_of_head rfl))

theorem scans_colon {rest : List Char} : Scans [':'] [.symbol .colon] rest :=
  scans_of_front rfl

theorem scans_assign {rest : List Char} : Scans ['=', ' '] [.symbol .assign] rest :=
  @scans_blank ['='] rest _ (scans_of_front rfl)

theorem Expr.scans_before {e : Expr} (h : e.isCanonical = true) {c : Char} {rest : List Char}
    (sep : isSeparator c = true) (point : c ≠ '.') : Scans e.text.toList e.tokens (c :: rest) :=
  isScanned h _ (Expr.before_of_head sep point)

theorem Expr.scans_line {e : Expr} (h : e.isCanonical = true) {rest : List Char} :
    Scans e.text.toList e.tokens ('\n' :: rest) :=
  Expr.scans_before h rfl (by decide)

theorem isLine_pass : IsLine "pass" [.keyword .pass] where
  some_token := by simp
  scans _ := scans_keyword .pass (separated_of_head rfl)
  inline := inline_keyword .pass

theorem isLine_expr {e : Expr} (h : e.isCanonical = true) : IsLine e.text e.tokens where
  some_token := e.tokens_ne_nil
  scans _ := Expr.scans_line h
  inline := e.inline

theorem isLine_return {e : Expr} (h : e.isCanonical = true) :
    IsLine ("return " ++ e.text) (.keyword .return_ :: e.tokens) where
  some_token := by simp
  scans rest := by
    simpa [Keyword.text] using
      (scans_keyword_blank .return_).append (by simp) (@Expr.scans_line e h rest)
  inline := (inline_keyword .return_).cons e.inline

/-- The line before a block that has a condition. -/
theorem isLine_condition (k : Keyword) {e : Expr} (h : e.isCanonical = true) :
    IsLine (k.text ++ " " ++ e.text ++ ":") (.keyword k :: e.tokens ++ [Token.symbol .colon]) where
  some_token := by simp
  scans rest := by
    have behind := (Expr.scans_before h rfl (by decide)).append e.tokens_ne_nil
      (@scans_colon ('\n' :: rest))
    simpa using (scans_keyword_blank k).append (by simp) behind
  inline := ((inline_keyword k).cons e.inline).append inline_colon

theorem isLine_else : IsLine "else:" [.keyword .else_, .symbol .colon] where
  some_token := by simp
  scans rest := (scans_keyword .else_ (separated_of_head rfl)).append (by simp) scans_colon
  inline := (inline_keyword .else_).cons inline_colon

theorem Target.tokens_ne_nil (t : Target) : t.tokens ≠ [] := by
  cases t <;> simp [Target.tokens]

theorem Target.scans {t : Target} (h : t.isCanonical = true) {rest : List Char} :
    Scans t.text.toList t.tokens (' ' :: rest) := by
  cases t with
  | var x => exact scans_name h (separated_of_head rfl)
  | member o m =>
    simp only [Target.isCanonical, Bool.and_eq_true] at h
    have behind := scans_dot.append (by simp) (scans_name h.2 (@separated_of_head ' ' rest rfl))
    simpa [Target.text, Target.tokens] using
      (scans_receiver (isScanned h.1)).append parenthesizedTokens_ne_nil behind

theorem isLine_assign {t : Target} {e : Expr} (ht : t.isCanonical = true)
    (he : e.isCanonical = true) :
    IsLine (t.text ++ " = " ++ e.text) (t.tokens ++ .symbol .assign :: e.tokens) where
  some_token := by simp
  scans rest := by
    have behind := scans_assign.append (by simp) (@Expr.scans_line e he rest)
    simpa using (scans_blank (Target.scans ht)).append t.tokens_ne_nil behind
  inline := t.inline.append (inline_assign.cons e.inline)

/-- A line with a block behind it, and nothing after the block. -/
theorem laid_block {d : Nat} {text : String} {ts us : List Token} {body : List Line}
    (line : IsLine text (ts ++ [Token.symbol .colon])) (some_line : body ≠ [])
    (h : Laid (d + 1) body us) : Laid d (⟨d, text⟩ :: body) (ts ++ suite us) := by
  simpa [suite] using Laid.block line some_line h .nil

theorem laid_line {d : Nat} {text : String} {ts : List Token} (line : IsLine text ts) :
    Laid d [⟨d, text⟩] (ts ++ [Token.newline]) :=
  .line line .nil

theorem Stmt.lines_ne_nil (d : Nat) (s : Stmt) : s.lines d ≠ [] := by
  cases s with
  | if_ c body elif orElse =>
    cases elif <;> cases orElse <;> simp [lines]
  | _ => simp [lines]

/-- What is to be shown of a statement. -/
def Stmt.IsLaid (s : Stmt) : Prop := ∀ d, Laid d (s.lines d) s.tokens

theorem laid_list {ss : List Stmt} (h : ∀ s ∈ ss, s.IsLaid) (d : Nat) :
    Laid d (Stmt.listLines d ss) (Stmt.listTokens ss) := by
  induction ss with
  | nil => exact .nil
  | cons s ss ih => exact (h s (by simp) d).append (ih fun t ht => h t (by simp [ht]))

/-- The block of a body that is not empty. -/
theorem laid_body {ss : List Stmt} (some_stmt : ss ≠ []) (h : ∀ s ∈ ss, s.IsLaid) {d : Nat}
    {text : String} {ts : List Token} (line : IsLine text (ts ++ [Token.symbol .colon])) :
    Laid d (⟨d, text⟩ :: Stmt.blockLines (d + 1) ss) (ts ++ suite (Stmt.listTokens ss)) := by
  cases ss with
  | nil => exact absurd rfl some_stmt
  | cons s ss =>
    refine laid_block line ?_ (laid_list h (d + 1))
    simp [Stmt.blockLines, Stmt.lines_ne_nil]

/-- The lines of every canonical statement are laid out as its tokens. -/
theorem Stmt.isLaid {mayReturn : Bool} {s : Stmt} (h : s.isCanonical mayReturn = true) :
    s.IsLaid := by
  induction s with
  | pass => exact fun d => laid_line isLine_pass
  | assign t e =>
    simp only [isCanonical, Bool.and_eq_true] at h
    intro d
    simpa [lines, tokens] using laid_line (d := d) (isLine_assign h.1 h.2)
  | expr e => exact fun d => laid_line (isLine_expr h)
  | return_ e =>
    simp only [isCanonical, Bool.and_eq_true] at h
    exact fun d => laid_line (isLine_return h.2)
  | while_ c body ih =>
    simp only [isCanonical, Bool.and_eq_true, isCanonicalBody_iff, areCanonical_iff] at h
    obtain ⟨hc, some_stmt, hbody⟩ := h
    intro d
    exact laid_body some_stmt (fun s hs => ih s hs (hbody s hs)) (isLine_condition .while_ hc)
  | if_ c body elif orElse ihbody ihelif ihelse =>
    simp only [isCanonical_if_iff, isCanonicalBody_iff, areCanonical_iff] at h
    obtain ⟨hc, ⟨some_stmt, hbody⟩, helif, helse⟩ := h
    intro d
    have first : Laid d (⟨d, "if " ++ c.text ++ ":"⟩ :: blockLines (d + 1) body)
        (.keyword .if_ :: c.tokens ++ suite (listTokens body)) :=
      laid_body some_stmt (fun s hs => ihbody s hs (hbody s hs)) (isLine_condition .if_ hc)
    have second : ∀ e ∈ elif, Laid d (⟨d, "elif " ++ e.1.text ++ ":"⟩ :: blockLines (d + 1) e.2)
        (.keyword .elif :: e.1.tokens ++ suite (listTokens e.2)) := fun e he =>
      laid_body (helif e he).2.1 (fun s hs => ihelif e he s hs ((helif e he).2.2 s hs))
        (isLine_condition .elif (helif e he).1)
    have last : ∀ b ∈ orElse, Laid d (⟨d, "else:"⟩ :: blockLines (d + 1) b)
        ([Token.keyword .else_] ++ suite (listTokens b)) := fun b hb =>
      laid_body (helse b hb).1 (fun s hs => ihelse b hb s hs ((helse b hb).2 s hs)) isLine_else
    rcases elif with _ | ⟨c', body'⟩
    · cases orElse with
      | none => simpa [lines, tokens, elifTokens, elseTokens] using first
      | some orElse =>
        simpa [lines, tokens, elifTokens, elseTokens] using first.append (last orElse rfl)
    · cases orElse with
      | none => simpa [lines, tokens, elifTokens, elseTokens] using first.append (second _ rfl)
      | some orElse =>
        simpa [lines, tokens, elifTokens, elseTokens] using
          (first.append (second _ rfl)).append (last orElse rfl)

/-! ## §4 Lines of definitions and programs -/

theorem scans_colon_blank {rest : List Char} : Scans [':', ' '] [.symbol .colon] rest :=
  @scans_blank [':'] rest _ scans_colon

/-- A name with its type. -/
theorem scans_typed {x : String} {ty : Ty} (hx : isIdentifier x = true)
    (hty : ty.isCanonical = true) {rest : List Char} (sep : Separated rest) :
    Scans (x.toList ++ [':', ' '] ++ ty.text.toList) [.name x, .symbol .colon, ty.token] rest := by
  have behind := scans_colon_blank.append (by simp) (scans_type hty sep)
  simpa using (scans_name hx (separated_of_head (c := ':') rfl)).append (by simp) behind

theorem isLine_varDef {v : VarDef} (h : v.isCanonical = true) : IsLine v.text v.tokens where
  some_token := by simp [VarDef.tokens]
  scans rest := by
    simp only [VarDef.isCanonical, Bool.and_eq_true] at h
    have value := scans_literal h.2 (@separated_of_head '\n' rest rfl) (by simp)
    have behind := scans_assign.append (by simp) value
    have typed := (scans_blank (scans_typed h.1.1 h.1.2 (separated_of_head rfl))).append
      (by simp) behind
    simpa [VarDef.text, VarDef.tokens] using typed
  inline := (inline_name _).cons (inline_colon.cons ((inline_type _).cons
    (inline_assign.cons (inline_literal _))))

theorem Param.scans {p : Param} (h : p.isCanonical = true) {rest : List Char}
    (sep : Separated rest) : Scans p.text.toList p.tokens rest := by
  simp only [Param.isCanonical, Bool.and_eq_true] at h
  simpa [Param.text, Param.tokens] using scans_typed h.1 h.2 sep

theorem Param.inline (p : Param) : Inline p.tokens :=
  (inline_name _).cons (inline_colon.cons (inline_type _))

/-- The name of a function or a class with the parenthesis behind it. -/
theorem scans_opening (k : Keyword) {x : String} (hx : isIdentifier x = true) {rest : List Char} :
    Scans (k.text.toList ++ ' ' :: x.toList ++ ['(']) [.keyword k, .name x, .symbol .lparen]
      rest := by
  have name := (scans_name hx (separated_of_head (c := '(') rfl)).append (by simp)
    (@scans_lparen rest)
  simpa using (scans_keyword_blank k).append (by simp) name

theorem Param.scans_list {params : List Param} (h : params.all Param.isCanonical = true)
    {rest : List Char} :
    Scans ((String.intercalate ", " (params.map Param.text)).toList ++ [')'])
      (commas (params.map Param.tokens) ++ [Token.symbol .rparen]) rest := by
  refine scans_commas ?_
  rw [List.forall₂_map_left_iff, List.forall₂_map_right_iff, List.forall₂_same]
  intro p hp
  refine ⟨by simp [Param.tokens], fun c rest sep _ => ?_⟩
  exact Param.scans (List.all_eq_true.1 h p hp) (separated_of_head sep)

theorem scans_arrow {rest : List Char} : Scans ['-', '>', ' '] [.symbol .arrow] rest :=
  @scans_blank ['-', '>'] rest _ (scans_of_front rfl)

theorem inline_result (ty : Ty) : Inline (resultTokens ty) := by
  unfold resultTokens
  split
  · exact inline_nil
  · exact (inline_token (by simp) fun _ => rfl : Inline [.symbol .arrow]).cons (inline_type ty)

theorem isLine_header {f : FunDef} (h : f.isCanonical = true) :
    IsLine f.header (f.headerTokens ++ [Token.symbol .colon]) where
  some_token := by simp
  scans rest := by
    simp only [FunDef.isCanonical, Bool.and_eq_true] at h
    obtain ⟨⟨⟨⟨⟨hname, hparams⟩, hresult⟩, -⟩, -⟩, -⟩ := h
    have params := fun rest => @Param.scans_list f.params hparams rest
    by_cases none : f.result = .none
    · have behind := (params _).append (by simp) (@scans_colon ('\n' :: rest))
      simpa [FunDef.header, FunDef.headerTokens, resultTokens, none, Keyword.text] using
        (scans_opening .def_ hname).append (by simp) behind
    · have result := (scans_type hresult (separated_of_head rfl)).append (by simp)
        (@scans_colon ('\n' :: rest))
      have behind := (scans_blank (params _)).append (by simp) (scans_arrow.append (by simp) result)
      simpa [FunDef.header, FunDef.headerTokens, resultTokens, none, Keyword.text] using
        (scans_opening .def_ hname).append (by simp) behind
  inline := by
    have params : Inline (commas (f.params.map Param.tokens)) :=
      inline_commas (by simpa using fun p _ => p.inline)
    have behind := params.parens.append ((inline_result f.result).append inline_colon)
    simpa [FunDef.headerTokens] using (inline_keyword .def_).cons ((inline_name f.name).cons behind)

theorem isLine_class {c : ClassDef} (h : c.isCanonical = true) :
    IsLine ("class " ++ c.name ++ "(" ++ c.parent ++ "):")
      (c.headerTokens ++ [Token.symbol .colon]) where
  some_token := by simp
  scans rest := by
    simp only [ClassDef.isCanonical, Bool.and_eq_true] at h
    have behind := scans_rparen.append (by simp) (@scans_colon ('\n' :: rest))
    have parent := (scans_name h.1.1.2 (separated_of_head (c := ')') rfl)).append (by simp) behind
    simpa [ClassDef.headerTokens, Keyword.text] using
      (scans_opening .class_ h.1.1.1).append (by simp) parent
  inline := (inline_keyword _).cons ((inline_name _).cons
    ((inline_name _).parens.append inline_colon))

theorem laid_varDefs {vs : List VarDef} (h : vs.all VarDef.isCanonical = true) (d : Nat) :
    Laid d (vs.map fun v => ⟨d, v.text⟩) (vs.flatMap fun v => v.tokens ++ [Token.newline]) := by
  induction vs with
  | nil => exact .nil
  | cons v vs ih =>
    simp only [List.all_cons, Bool.and_eq_true] at h
    exact (laid_line (isLine_varDef h.1)).append (ih h.2)

theorem Stmt.blockLines_of_ne_nil {ss : List Stmt} (h : ss ≠ []) (d : Nat) :
    blockLines d ss = listLines d ss := by
  cases ss with
  | nil => exact absurd rfl h
  | cons s ss => rfl

theorem Stmt.listLines_ne_nil {ss : List Stmt} (h : ss ≠ []) (d : Nat) : listLines d ss ≠ [] := by
  cases ss with
  | nil => exact absurd rfl h
  | cons s ss => simp [listLines, lines_ne_nil]

/-- The lines of the body of a function: a body that is not empty needs no `pass`. -/
theorem FunDef.lines_eq {f : FunDef} (some_part : ¬ (f.locals = [] ∧ f.body = [])) (d : Nat) :
    f.lines d = ⟨d, f.header⟩ ::
      (f.locals.map (fun v => ⟨d + 1, v.text⟩) ++ Stmt.listLines (d + 1) f.body) := by
  by_cases locals : f.locals = []
  · rw [FunDef.lines, if_pos locals, Stmt.blockLines_of_ne_nil (fun body => some_part ⟨locals, body⟩)]
    rfl
  · rw [FunDef.lines, if_neg locals]
    rfl

theorem laid_funDef {f : FunDef} (h : f.isCanonical = true) (d : Nat) :
    Laid d (f.lines d) f.tokens := by
  have line := isLine_header h
  simp only [FunDef.isCanonical, Bool.and_eq_true, Stmt.areCanonical_iff, Bool.not_eq_true',
    Bool.and_eq_false_iff, List.isEmpty_eq_false_iff] at h
  obtain ⟨⟨⟨-, hlocals⟩, hbody⟩, some_part⟩ := h
  rw [FunDef.lines_eq (by tauto)]
  refine laid_block line ?_ ((laid_varDefs hlocals (d + 1)).append
    (laid_list (fun s hs => Stmt.isLaid (hbody s hs)) (d + 1)))
  rcases some_part with locals | body
  · simp [locals]
  · simp [Stmt.listLines_ne_nil body]

theorem laid_funDefs {fs : List FunDef} (h : fs.all FunDef.isCanonical = true) (d : Nat) :
    Laid d (fs.flatMap (FunDef.lines d)) (fs.flatMap FunDef.tokens) := by
  induction fs with
  | nil => exact .nil
  | cons f fs ih =>
    simp only [List.all_cons, Bool.and_eq_true] at h
    exact (laid_funDef h.1 d).append (ih h.2)

theorem laid_classDef {c : ClassDef} (h : c.isCanonical = true) : Laid 0 c.lines c.tokens := by
  have line := isLine_class h
  simp only [ClassDef.isCanonical, Bool.and_eq_true] at h
  obtain ⟨⟨-, hfields⟩, hmethods⟩ := h
  have members := (laid_varDefs hfields 1).append (laid_funDefs hmethods 1)
  have none_iff : c.fields.map (fun v => (⟨1, v.text⟩ : Line)) ++
      c.methods.flatMap (FunDef.lines 1) = [] ↔ c.fields = [] ∧ c.methods = [] := by
    cases c.methods <;> simp [FunDef.lines]
  simp only [ClassDef.lines, ClassDef.tokens, ClassDef.memberTokens]
  split
  · rename_i none
    rw [if_pos (none_iff.1 none)]
    exact laid_block line (by simp) (laid_line isLine_pass)
  · rename_i some_member
    rw [if_neg (mt none_iff.2 some_member)]
    exact laid_block line some_member members

theorem laid_defs {defs : List Def} (h : defs.all Def.isCanonical = true) :
    Laid 0 (defs.flatMap Def.lines) (defs.flatMap Def.tokens) := by
  induction defs with
  | nil => exact .nil
  | cons d defs ih =>
    simp only [List.all_cons, Bool.and_eq_true] at h
    refine Laid.append ?_ (ih h.2)
    cases d with
    | var v => exact laid_line (isLine_varDef h.1)
    | function f => exact laid_funDef h.1 0
    | class_ c => exact laid_classDef h.1

/-- The source form of every canonical program is cut into the tokens of the program. -/
theorem Program.lex_text {p : Program} (h : p.isCanonical = true) :
    ∃ lexemes, lex p.text.toList = .ok lexemes ∧ lexemes.map (·.token) = p.tokens := by
  simp only [isCanonical, Bool.and_eq_true, Stmt.areCanonical_iff] at h
  have stmts := laid_list (fun s hs => Stmt.isLaid (h.2 s hs)) 0
  exact ((laid_defs h.1).append stmts).lex

end Serpent
