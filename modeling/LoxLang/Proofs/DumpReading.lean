import LoxLang.Proofs.Declarations
import LoxLang.Proofs.Lexicon
import LoxLang.Proofs.NumberText

/-! # The dump determines the tree

A dump is a text of words in parentheses.  What it shows of a tree is a smaller tree, of
words alone (`Dump`): operators, names and values have become words, and what was a group, a
statement or an operator is a word with one operand or two.

The text of a dump can be read in one way only (`Dump.text_append_inj`).  Where one dump ends
is told by what follows it, since a word holds no space and no parenthesis.  Which tree the
dump shows is told by its words, as long as the tree holds no strings, its names are names and
its operators are spelled as such (`Expr.alike_of_dump_eq`).  So two such trees with the same
text are the same but for the lines and the literals of their tokens
(`same_text_same_tree`).
-/
namespace LoxLang

/-! ### Numbers -/

namespace Number
variable {x y : Float}

/-- A float is its sign and its magnitude. -/
theorem eq_of_magnitude_eq (hmagnitude : magnitude x = magnitude y)
    (hsign : negative x = negative y) : x = y := by
  have hbits : x.toBits = y.toBits := by
    apply UInt64.toNat_inj.mp
    have hx := x.toBits.toNat_lt
    have hy := y.toBits.toNat_lt
    simp only [magnitude, negative, Nat.pow_eq, decide_eq_decide] at hmagnitude hsign
    omega
  rw [← Float.ofBits_toBits x, hbits, Float.ofBits_toBits]

/-- The text of a finite number starts with a digit or a sign, and goes on with digits, points
and signs. -/
theorem toList_text (h : x.isFinite = true) :
    ∃ c w, (text x).toList = c :: w ∧ (c.isDigit = true ∨ c = '-') ∧
      ∀ d ∈ w, d.isDigit = true ∨ d = '.' := by
  obtain ⟨c, w, hdecimal, hc, -⟩ := (Binary64.shortest (magnitude x)).toText_lexeme
  have hall : ∀ d ∈ c :: w, d.isDigit = true ∨ d = '.' := fun d hd =>
    Decimal.isDigit_or_point_of_mem_toText (hdecimal ▸ hd)
  rw [text, textWith_of_isFinite h, String.toList_append, String.toList_ofList, hdecimal]
  cases negative x with
  | true => exact ⟨'-', c :: w, rfl, .inr rfl, hall⟩
  | false => exact ⟨c, w, rfl, .inl hc, fun d hd => hall d (List.mem_cons_of_mem c hd)⟩

/-- The sign and the decimal can be told apart, since a decimal starts with a digit. -/
theorem sign_append_inj {a b : Bool} {d e : Decimal}
    (h : (if a then "-" else "") ++ String.ofList d.toText =
      (if b then "-" else "") ++ String.ofList e.toText) : a = b ∧ d = e := by
  obtain ⟨c, w, hd, hc, -⟩ := d.toText_lexeme
  obtain ⟨c', w', he, hc', -⟩ := e.toText_lexeme
  have hlists := congrArg String.toList h
  simp only [String.toList_append, String.toList_ofList] at hlists
  have htexts : d.toText = e.toText → d = e := fun htext => by
    rw [← d.ofText_toText, htext, e.ofText_toText]
  cases a <;> cases b
  · exact ⟨rfl, htexts hlists⟩
  · rw [hd] at hlists
    obtain ⟨rfl, -⟩ := List.cons.inj hlists
    exact absurd hc (by decide)
  · rw [he] at hlists
    obtain ⟨rfl, -⟩ := List.cons.inj hlists
    exact absurd hc' (by decide)
  · exact ⟨rfl, htexts (List.cons.inj hlists).2⟩

/-- **Finite numbers have texts of their own.** -/
theorem eq_of_text_eq (hx : x.isFinite = true) (hy : y.isFinite = true)
    (h : text x = text y) : x = y := by
  rw [text, text, textWith_of_isFinite hx, textWith_of_isFinite hy] at h
  obtain ⟨hsign, hdecimal⟩ := sign_append_inj h
  apply eq_of_magnitude_eq ?_ hsign
  rw [← Binary64.nearest_shortest ((isFinite_iff x).mp hx), hdecimal,
    Binary64.nearest_shortest ((isFinite_iff y).mp hy)]

end Number

/-! ### Dumps -/

/-- What a dump shows: words, and words with one operand or two. -/
inductive Dump where
  | word (w : String)
  | one (head : String) (operand : Dump)
  | two (head : String) (left right : Dump)

namespace Dump

/-- The text of a dump. -/
def text : Dump → String
  | word w => w
  | one head operand => parenthesized head [operand.text]
  | two head left right => parenthesized head [left.text, right.text]

/-- A text without a space and without parentheses. -/
def Unbroken (w : List Char) : Prop := ∀ c ∈ w, c ≠ ' ' ∧ c ≠ '(' ∧ c ≠ ')'

/-- Every word of a dump is unbroken, and there is something of it to see where it stands
alone. -/
def Readable : Dump → Prop
  | word w => w.toList ≠ [] ∧ Unbroken w.toList
  | one head operand => Unbroken head.toList ∧ operand.Readable
  | two head left right => Unbroken head.toList ∧ left.Readable ∧ right.Readable

/-- What may follow a dump: nothing, a space or a parenthesis that closes. -/
def Ends (rest : List Char) : Prop := ∀ c ∈ rest.head?, c = ' ' ∨ c = ')'

theorem text_one_append (head : String) (operand : Dump) (rest : List Char) :
    (one head operand).text.toList ++ rest =
      '(' :: (head.toList ++ ' ' :: (operand.text.toList ++ ')' :: rest)) := by
  simp [text, parenthesized]

theorem text_two_append (head : String) (left right : Dump) (rest : List Char) :
    (two head left right).text.toList ++ rest =
      '(' :: (head.toList ++
        ' ' :: (left.text.toList ++ ' ' :: (right.text.toList ++ ')' :: rest))) := by
  simp [text, parenthesized]

theorem ends_cons {c : Char} {rest : List Char} (h : c = ' ' ∨ c = ')') : Ends (c :: rest) := by
  rintro _ ⟨⟩
  exact h

/-- An unbroken text ends where what follows it begins. -/
theorem Unbroken.append_inj {w w' rest rest' : List Char} (hw : Unbroken w) (hw' : Unbroken w')
    (hr : Ends rest) (hr' : Ends rest') (h : w ++ rest = w' ++ rest') : w = w' ∧ rest = rest' := by
  -- a text that goes on where the other has ended holds what ends the other
  have hclash {c : Char} {v more : List Char} (hv : Unbroken (c :: v))
      (hends : Ends (c :: more)) : False := by
    obtain ⟨hspace, -, hclose⟩ := hv c List.mem_cons_self
    exact (hends c rfl).elim hspace hclose
  induction w generalizing w' with
  | nil =>
    cases w' with
    | nil => exact ⟨rfl, h⟩
    | cons c v =>
      rw [List.nil_append] at h
      exact (hclash hw' (h ▸ hr)).elim
  | cons c w ih =>
    cases w' with
    | nil =>
      rw [List.nil_append] at h
      exact (hclash hw (h ▸ hr')).elim
    | cons c' w' =>
      obtain ⟨rfl, htails⟩ := List.cons.inj h
      obtain ⟨rfl, hrest⟩ := ih (fun d hd => hw d (List.mem_cons_of_mem _ hd))
        (fun d hd => hw' d (List.mem_cons_of_mem _ hd)) htails
      exact ⟨rfl, hrest⟩

/-- A word does not start with a parenthesis. -/
theorem Unbroken.append_ne_open {w rest more : List Char} (hne : w ≠ []) (hw : Unbroken w) :
    w ++ rest ≠ '(' :: more := by
  obtain ⟨c, v, rfl⟩ := List.exists_cons_of_ne_nil hne
  intro h
  obtain ⟨rfl, -⟩ := List.cons.inj h
  exact (hw '(' List.mem_cons_self).2.1 rfl

/-- The word behind an open parenthesis ends at the first space. -/
theorem open_inj {h h' : String} {rest rest' : List Char} (hh : Unbroken h.toList)
    (hh' : Unbroken h'.toList)
    (heq : '(' :: (h.toList ++ ' ' :: rest) = '(' :: (h'.toList ++ ' ' :: rest')) :
    h = h' ∧ rest = rest' := by
  obtain ⟨-, heq⟩ := List.cons.inj heq
  obtain ⟨hheads, hrests⟩ :=
    hh.append_inj hh' (ends_cons (.inl rfl)) (ends_cons (.inl rfl)) heq
  exact ⟨String.toList_inj.mp hheads, (List.cons.inj hrests).2⟩

/-- **A dump can be read in one way only.**  Whatever follows two dumps, if the texts are the
same then so are the dumps. -/
theorem text_append_inj {d d' : Dump} {rest rest' : List Char} (hd : d.Readable)
    (hd' : d'.Readable) (hr : Ends rest) (hr' : Ends rest')
    (h : d.text.toList ++ rest = d'.text.toList ++ rest') : d = d' ∧ rest = rest' := by
  induction d generalizing d' rest rest' with
  | word w =>
    cases d' with
    | word w' =>
      obtain ⟨hwords, hrests⟩ := hd.2.append_inj hd'.2 hr hr' h
      exact ⟨congrArg word (String.toList_inj.mp hwords), hrests⟩
    | one | two =>
      simp only [text_one_append, text_two_append] at h
      exact absurd h (hd.2.append_ne_open hd.1)
  | one head operand ih =>
    rw [text_one_append] at h
    cases d' with
    | word w' => exact absurd h.symm (hd'.2.append_ne_open hd'.1)
    | one head' operand' =>
      rw [text_one_append] at h
      obtain ⟨rfl, hbodies⟩ := open_inj hd.1 hd'.1 h
      obtain ⟨rfl, hrests⟩ := ih hd.2 hd'.2 (ends_cons (.inr rfl)) (ends_cons (.inr rfl)) hbodies
      exact ⟨rfl, (List.cons.inj hrests).2⟩
    | two head' left' right' =>
      -- behind the first operand stands a parenthesis in the one and a space in the other
      rw [text_two_append] at h
      obtain ⟨rfl, hbodies⟩ := open_inj hd.1 hd'.1 h
      obtain ⟨-, hrests⟩ := ih hd.2 hd'.2.1 (ends_cons (.inr rfl)) (ends_cons (.inl rfl)) hbodies
      cases hrests
  | two head left right ihl ihr =>
    rw [text_two_append] at h
    cases d' with
    | word w' => exact absurd h.symm (hd'.2.append_ne_open hd'.1)
    | one head' operand' =>
      rw [text_one_append] at h
      obtain ⟨rfl, hbodies⟩ := open_inj hd.1 hd'.1 h
      obtain ⟨-, hrests⟩ := ihl hd.2.1 hd'.2 (ends_cons (.inl rfl)) (ends_cons (.inr rfl)) hbodies
      cases hrests
    | two head' left' right' =>
      rw [text_two_append] at h
      obtain ⟨rfl, hbodies⟩ := open_inj hd.1 hd'.1 h
      obtain ⟨rfl, hseconds⟩ :=
        ihl hd.2.1 hd'.2.1 (ends_cons (.inl rfl)) (ends_cons (.inl rfl)) hbodies
      obtain ⟨rfl, hrests⟩ := ihr hd.2.2 hd'.2.2 (ends_cons (.inr rfl)) (ends_cons (.inr rfl))
        (List.cons.inj hseconds).2
      exact ⟨rfl, (List.cons.inj hrests).2⟩

/-- **The text determines the dump.** -/
theorem eq_of_text_eq {d d' : Dump} (hd : d.Readable) (hd' : d'.Readable)
    (h : d.text = d'.text) : d = d' :=
  (@text_append_inj d d' [] [] hd hd' nofun nofun (by rw [h])).1

end Dump

/-! ### Trees without strings -/

/-- The operators before an operand, as they are spelled. -/
def unaryOperators : List (Kind × String) := [(.minus, "-"), (.bang, "!")]

/-- The operators between two operands, as they are spelled. -/
def binaryOperators : List (Kind × String) :=
  [(.equalEqual, "=="), (.bangEqual, "!="), (.greater, ">"), (.greaterEqual, ">="),
    (.less, "<"), (.lessEqual, "<="), (.minus, "-"), (.plus, "+"), (.slash, "/"), (.star, "*")]

/-- The token is spelled as an identifier and not as a reserved word. -/
def Token.IsName (t : Token) : Prop :=
  (Role.matched .identifier).Fits t.lexeme.toList ∧ t.lexeme ∉ Kind.keywords.map Prod.fst

/-- The value is `nil`, a truth value or a finite number. -/
def Value.Plain : Value → Prop
  | nil => True
  | bool _ => True
  | number x => x.isFinite = true
  | string _ => False

/-- Every value of an expression is plain, every variable has a name, and every operator is
spelled as such. -/
def Expr.Plain : Expr → Prop
  | literal value => value.Plain
  | var name => name.IsName
  | unary operator operand =>
    (operator.kind, operator.lexeme) ∈ unaryOperators ∧ operand.Plain
  | binary left operator right =>
    (operator.kind, operator.lexeme) ∈ binaryOperators ∧ left.Plain ∧ right.Plain
  | group inner => inner.Plain

/-- The expression of a statement is plain, and what it declares has a name. -/
def Stmt.Plain : Stmt → Prop
  | expression expr => expr.Plain
  | print expr => expr.Plain
  | declare name initial => name.IsName ∧ ∀ e ∈ initial, e.Plain

/-! ### Trees that differ in lines and literals only -/

/-- Two tokens of the same kind and lexeme. -/
structure Token.Alike (t u : Token) : Prop where
  kind : t.kind = u.kind
  lexeme : t.lexeme = u.lexeme

/-- Two expressions of the same shape, with the same values and the same names, and operators
of the same kinds and lexemes. -/
inductive Expr.Alike : Expr → Expr → Prop
  | literal (value : Value) : Alike (.literal value) (.literal value)
  | var {name name' : Token} (h : name.lexeme = name'.lexeme) : Alike (.var name) (.var name')
  | unary {operator operator' : Token} {operand operand' : Expr}
      (ho : operator.Alike operator') (h : Alike operand operand') :
      Alike (.unary operator operand) (.unary operator' operand')
  | binary {operator operator' : Token} {left left' right right' : Expr}
      (ho : operator.Alike operator') (hl : Alike left left') (hr : Alike right right') :
      Alike (.binary left operator right) (.binary left' operator' right')
  | group {inner inner' : Expr} (h : Alike inner inner') : Alike (.group inner) (.group inner')

/-- Two statements of the same sort that declare the same name, with expressions that are
alike. -/
inductive Stmt.Alike : Stmt → Stmt → Prop
  | expression {expr expr' : Expr} (h : expr.Alike expr') :
      Alike (.expression expr) (.expression expr')
  | print {expr expr' : Expr} (h : expr.Alike expr') : Alike (.print expr) (.print expr')
  | declare {name name' : Token} {initial initial' : Option Expr}
      (hn : name.lexeme = name'.lexeme) (h : Option.Rel Expr.Alike initial initial') :
      Alike (.declare name initial) (.declare name' initial')

/-! ### What the dump of a tree shows -/

/-- The dump of an expression. -/
def Expr.dump : Expr → Dump
  | literal value => .word value.text
  | var name => .word name.lexeme
  | unary operator operand => .one operator.lexeme operand.dump
  | binary left operator right => .two operator.lexeme left.dump right.dump
  | group inner => .one "group" inner.dump

/-- The dump of a statement. -/
def Stmt.dump : Stmt → Dump
  | expression expr => .one ";" expr.dump
  | print expr => .one "print" expr.dump
  | declare name none => .one "var" (.word name.lexeme)
  | declare name (some initial) => .two "var" (.word name.lexeme) initial.dump

theorem Expr.text_dump (e : Expr) : e.dump.text = e.text := by
  induction e with
  | literal value => rfl
  | var name => rfl
  | unary operator operand ih => rw [dump, Dump.text, text, ih]
  | binary left operator right ihl ihr => rw [dump, Dump.text, text, ihl, ihr]
  | group inner ih => rw [dump, Dump.text, text, ih]

theorem Stmt.text_dump (s : Stmt) : s.dump.text = s.text := by
  cases s with
  | expression expr => rw [dump, Dump.text, text, expr.text_dump]
  | print expr => rw [dump, Dump.text, text, expr.text_dump]
  | declare name initial =>
    cases initial with
    | none => rfl
    | some initial =>
      rw [dump, Dump.text, text, initial.text_dump]
      rfl

/-- Characters of a class without spaces and parentheses make up unbroken texts. -/
theorem Dump.unbroken_of_forall {p : Char → Prop} {w : List Char} (h : ∀ c ∈ w, p c)
    (hspace : ¬ p ' ') (hopen : ¬ p '(') (hclose : ¬ p ')') : Unbroken w := by
  intro c hc
  refine ⟨?_, ?_, ?_⟩
  · rintro rfl
    exact hspace (h _ hc)
  · rintro rfl
    exact hopen (h _ hc)
  · rintro rfl
    exact hclose (h _ hc)

/-- A name starts with a letter or an underscore, and holds nothing that breaks it. -/
theorem Token.IsName.toList_lexeme {t : Token} (h : t.IsName) :
    ∃ c w, t.lexeme.toList = c :: w ∧ Piece.startsWord c = true ∧ Dump.Unbroken (c :: w) := by
  obtain ⟨c, w, hlexeme, hc, hw⟩ := Role.fits_identifier_iff.mp h.1
  refine ⟨c, w, hlexeme, hc, ?_⟩
  have hall : ∀ d ∈ c :: w, Piece.startsWord d = true ∨ Piece.continuesWord d = true := by
    rw [List.forall_mem_cons]
    exact ⟨.inl hc, fun d hd => .inr (hw d hd)⟩
  exact Dump.unbroken_of_forall hall (by decide) (by decide) (by decide)

theorem Token.IsName.readable {t : Token} (h : t.IsName) : (Dump.word t.lexeme).Readable := by
  obtain ⟨c, w, hlexeme, -, hunbroken⟩ := h.toList_lexeme
  exact ⟨by rw [hlexeme]; exact List.cons_ne_nil c w, by rw [hlexeme]; exact hunbroken⟩

theorem Number.readable_text {x : Float} (h : x.isFinite = true) :
    (Dump.word (text x)).Readable := by
  obtain ⟨c, w, htext, hc, hw⟩ := toList_text h
  have hall : ∀ d ∈ c :: w, d.isDigit = true ∨ d = '-' ∨ d = '.' := by
    rw [List.forall_mem_cons]
    exact ⟨hc.imp_right .inl, fun d hd => (hw d hd).imp_right .inr⟩
  refine ⟨by rw [htext]; exact List.cons_ne_nil c w, ?_⟩
  rw [htext]
  exact Dump.unbroken_of_forall hall (by decide) (by decide) (by decide)

theorem Value.Plain.readable {v : Value} (h : v.Plain) : (Dump.word v.text).Readable := by
  cases v with
  | nil => simp [Dump.Readable, Dump.Unbroken, text]
  | bool b => cases b <;> simp [Dump.Readable, Dump.Unbroken, text]
  | number x => exact Number.readable_text h
  | string s => cases h

theorem unbroken_of_mem_unaryOperators {k : Kind} {w : String} (h : (k, w) ∈ unaryOperators) :
    Dump.Unbroken w.toList := by
  have hall : ∀ o ∈ unaryOperators, Dump.Unbroken o.2.toList := by
    simp [unaryOperators, Dump.Unbroken]
  exact hall _ h

theorem unbroken_of_mem_binaryOperators {k : Kind} {w : String} (h : (k, w) ∈ binaryOperators) :
    Dump.Unbroken w.toList := by
  have hall : ∀ o ∈ binaryOperators, Dump.Unbroken o.2.toList := by
    simp [binaryOperators, Dump.Unbroken]
  exact hall _ h

theorem Expr.Plain.readable {e : Expr} (h : e.Plain) : e.dump.Readable := by
  induction e with
  | literal value => exact Value.Plain.readable h
  | var name => exact Token.IsName.readable h
  | unary operator operand ih => exact ⟨unbroken_of_mem_unaryOperators h.1, ih h.2⟩
  | binary left operator right ihl ihr =>
    exact ⟨unbroken_of_mem_binaryOperators h.1, ihl h.2.1, ihr h.2.2⟩
  | group inner ih => exact ⟨by simp [Dump.Unbroken], ih h⟩

theorem Stmt.Plain.readable {s : Stmt} (h : s.Plain) : s.dump.Readable := by
  have hheads : ∀ head ∈ [";", "print", "var"], Dump.Unbroken head.toList := by
    simp [Dump.Unbroken]
  cases s with
  | expression expr => exact ⟨hheads _ (by decide), Expr.Plain.readable h⟩
  | print expr => exact ⟨hheads _ (by decide), Expr.Plain.readable h⟩
  | declare name initial =>
    cases initial with
    | none => exact ⟨hheads _ (by decide), h.1.readable⟩
    | some initial => exact ⟨hheads _ (by decide), h.1.readable, (h.2 initial rfl).readable⟩

/-! ### Which tree the dump shows -/

/-- A number is not written as a word. -/
theorem Number.text_ne_of_startsWord {x : Float} (h : x.isFinite = true) {s : String} {c : Char}
    {w : List Char} (hs : s.toList = c :: w) (hc : Piece.startsWord c = true) : text x ≠ s := by
  rintro rfl
  obtain ⟨c', w', htext, hc', -⟩ := toList_text h
  rw [hs] at htext
  obtain ⟨rfl, -⟩ := List.cons.inj htext
  rcases hc' with hdigit | rfl
  · rw [Piece.not_isDigit_of_startsWord hc] at hdigit
    cases hdigit
  · exact absurd hc (by decide)

/-- No value is written as a name: a value that is written as a word has a reserved one. -/
theorem Value.Plain.text_ne_lexeme {v : Value} (h : v.Plain) {t : Token} (ht : t.IsName) :
    v.text ≠ t.lexeme := by
  intro heq
  cases v with
  | nil => exact ht.2 (heq ▸ by decide)
  | bool b => cases b <;> exact ht.2 (heq ▸ by decide)
  | number x =>
    obtain ⟨c, w, hlexeme, hc, -⟩ := ht.toList_lexeme
    exact Number.text_ne_of_startsWord h hlexeme hc heq
  | string s => cases h

/-- **A value that is no string has a text of its own.** -/
theorem Value.Plain.eq_of_text_eq {v v' : Value} (h : v.Plain) (h' : v'.Plain)
    (heq : v.text = v'.text) : v = v' := by
  have hnumber {x : Float} {u : Value} (hx : x.isFinite = true) (hu : u.Plain)
      (heq : Number.text x = u.text) : number x = u := by
    cases u with
    | nil => exact absurd heq (Number.text_ne_of_startsWord hx rfl (by decide))
    | bool b => cases b <;> exact absurd heq (Number.text_ne_of_startsWord hx rfl (by decide))
    | number y => rw [Number.eq_of_text_eq hx hu heq]
    | string s => cases hu
  cases v with
  | number x => exact hnumber h h' heq
  | string s => cases h
  | nil =>
    cases v' with
    | nil => rfl
    | bool b => cases b <;> exact absurd heq (by decide)
    | number y => exact (hnumber h' h heq.symm).symm
    | string s => cases h'
  | bool b =>
    cases v' with
    | nil => cases b <;> exact absurd heq (by decide)
    | bool b' => cases b <;> cases b' <;> first | rfl | exact absurd heq (by decide)
    | number y => exact (hnumber h' h heq.symm).symm
    | string s => cases h'

theorem kind_eq_of_mem_unaryOperators {k k' : Kind} {w : String} (h : (k, w) ∈ unaryOperators)
    (h' : (k', w) ∈ unaryOperators) : k = k' := by
  have hall : ∀ o ∈ unaryOperators, ∀ o' ∈ unaryOperators, o.2 = o'.2 → o.1 = o'.1 := by decide
  exact hall _ h _ h' rfl

theorem kind_eq_of_mem_binaryOperators {k k' : Kind} {w : String} (h : (k, w) ∈ binaryOperators)
    (h' : (k', w) ∈ binaryOperators) : k = k' := by
  have hall : ∀ o ∈ binaryOperators, ∀ o' ∈ binaryOperators, o.2 = o'.2 → o.1 = o'.1 := by decide
  exact hall _ h _ h' rfl

theorem ne_group_of_mem_unaryOperators {k : Kind} {w : String} (h : (k, w) ∈ unaryOperators) :
    w ≠ "group" := by
  have hall : ∀ o ∈ unaryOperators, o.2 ≠ "group" := by decide
  exact hall _ h

/-- **The words of a dump tell what they stand for.** -/
theorem Expr.alike_of_dump_eq {e e' : Expr} (h : e.Plain) (h' : e'.Plain)
    (heq : e.dump = e'.dump) : e.Alike e' := by
  induction e generalizing e' with
  | literal value =>
    cases e' with
    | literal value' =>
      cases Value.Plain.eq_of_text_eq h h' (Dump.word.inj heq)
      exact .literal value
    | var name' => exact absurd (Dump.word.inj heq) (Value.Plain.text_ne_lexeme h h')
    | _ => cases heq
  | var name =>
    cases e' with
    | literal value' => exact absurd (Dump.word.inj heq).symm (Value.Plain.text_ne_lexeme h' h)
    | var name' => exact .var (Dump.word.inj heq)
    | _ => cases heq
  | unary operator operand ih =>
    cases e' with
    | unary operator' operand' =>
      obtain ⟨hlexeme, hoperand⟩ := Dump.one.inj heq
      have hkind := kind_eq_of_mem_unaryOperators h.1 (hlexeme ▸ h'.1)
      exact .unary ⟨hkind, hlexeme⟩ (ih h.2 h'.2 hoperand)
    | group inner' => exact absurd (Dump.one.inj heq).1 (ne_group_of_mem_unaryOperators h.1)
    | _ => cases heq
  | binary left operator right ihl ihr =>
    cases e' with
    | binary left' operator' right' =>
      obtain ⟨hlexeme, hleft, hright⟩ := Dump.two.inj heq
      have hkind := kind_eq_of_mem_binaryOperators h.1 (hlexeme ▸ h'.1)
      exact .binary ⟨hkind, hlexeme⟩ (ihl h.2.1 h'.2.1 hleft) (ihr h.2.2 h'.2.2 hright)
    | _ => cases heq
  | group inner ih =>
    cases e' with
    | unary operator' operand' =>
      exact absurd (Dump.one.inj heq).1.symm (ne_group_of_mem_unaryOperators h'.1)
    | group inner' => exact .group (ih h h' (Dump.one.inj heq).2)
    | _ => cases heq

theorem Stmt.alike_of_dump_eq {s s' : Stmt} (h : s.Plain) (h' : s'.Plain)
    (heq : s.dump = s'.dump) : s.Alike s' := by
  cases s with
  | expression expr =>
    cases s' with
    | expression expr' => exact .expression (Expr.alike_of_dump_eq h h' (Dump.one.inj heq).2)
    | print expr' => simp [dump] at heq
    | declare name' initial' => cases initial' <;> simp [dump] at heq
  | print expr =>
    cases s' with
    | expression expr' => simp [dump] at heq
    | print expr' => exact .print (Expr.alike_of_dump_eq h h' (Dump.one.inj heq).2)
    | declare name' initial' => cases initial' <;> simp [dump] at heq
  | declare name initial =>
    cases s' with
    | expression expr' => cases initial <;> simp [dump] at heq
    | print expr' => cases initial <;> simp [dump] at heq
    | declare name' initial' =>
      cases initial with
      | none =>
        cases initial' with
        | none => exact .declare (Dump.word.inj (Dump.one.inj heq).2) .none
        | some initial' => cases heq
      | some initial =>
        cases initial' with
        | none => cases heq
        | some initial' =>
          obtain ⟨-, hname, hinitial⟩ := Dump.two.inj heq
          exact .declare (Dump.word.inj hname)
            (.some (Expr.alike_of_dump_eq (h.2 _ rfl) (h'.2 _ rfl) hinitial))

/-! ### Names that are identifiers -/

/-- The token without its line and its literal. -/
def Token.bare (t : Token) : Token := { t with literal := none, line := 0 }

/-- The expression without the lines and the literals of its tokens. -/
def Expr.bare : Expr → Expr
  | literal value => literal value
  | var name => var name.bare
  | unary operator operand => unary operator.bare operand.bare
  | binary left operator right => binary left.bare operator.bare right.bare
  | group inner => group inner.bare

namespace Stmt

/-- The statement without the lines and the literals of its tokens. -/
def bare : Stmt → Stmt
  | expression expr => expression expr.bare
  | print expr => print expr.bare
  | declare name initial => declare name.bare (initial.map Expr.bare)

/-- What a statement declares and the variables that it reads. -/
def names : Stmt → List Token
  | expression expr => expr.reads
  | print expr => expr.reads
  | declare name initial => name :: (initial.map Expr.reads).getD []

end Stmt

theorem Token.Alike.bare_eq {t u : Token} (h : t.Alike u) : t.bare = u.bare := by
  rw [bare, bare, h.kind, h.lexeme]

/-- Two identifiers with the same lexeme. -/
theorem Token.bare_eq_of_identifier {t u : Token} (ht : t.kind = .identifier)
    (hu : u.kind = .identifier) (h : t.lexeme = u.lexeme) : t.bare = u.bare :=
  Alike.bare_eq ⟨ht.trans hu.symm, h⟩

/-- Expressions that are alike, and whose names are identifiers, differ in lines and literals
of tokens only. -/
theorem Expr.Alike.bare_eq {e e' : Expr} (h : e.Alike e')
    (hnames : ∀ t ∈ e.reads, t.kind = .identifier)
    (hnames' : ∀ t ∈ e'.reads, t.kind = .identifier) : e.bare = e'.bare := by
  induction h with
  | literal value => rfl
  | @var name name' h =>
    have hname := hnames name (List.mem_singleton.mpr rfl)
    have hname' := hnames' name' (List.mem_singleton.mpr rfl)
    rw [bare, bare, Token.bare_eq_of_identifier hname hname' h]
  | unary ho h ih => rw [bare, bare, ho.bare_eq, ih hnames hnames']
  | binary ho hl hr ihl ihr =>
    rw [reads, List.forall_mem_append] at hnames hnames'
    rw [bare, bare, ho.bare_eq, ihl hnames.1 hnames'.1, ihr hnames.2 hnames'.2]
  | group h ih => rw [bare, bare, ih hnames hnames']

theorem Stmt.Alike.bare_eq {s s' : Stmt} (h : s.Alike s')
    (hnames : ∀ t ∈ s.names, t.kind = .identifier)
    (hnames' : ∀ t ∈ s'.names, t.kind = .identifier) : s.bare = s'.bare := by
  cases h with
  | expression h => rw [bare, bare, h.bare_eq hnames hnames']
  | print h => rw [bare, bare, h.bare_eq hnames hnames']
  | declare hn h =>
    rw [names, List.forall_mem_cons] at hnames hnames'
    rw [bare, bare, Token.bare_eq_of_identifier hnames.1 hnames'.1 hn]
    cases h with
    | none => rfl
    | some h => rw [Option.map_some, Option.map_some, h.bare_eq hnames.2 hnames'.2]

/-- **The dump determines the tree.**  Let two statements hold no strings, let their names be
spelled as identifiers that are not reserved, and their operators as such.  If they have the
same text, they are of the same sort and shape, with the same values, names and operators.  If
in addition their names are of the kind of identifiers, they differ in nothing but the lines
and the literals of their tokens.  The same holds of expressions. -/
theorem same_text_same_tree :
    (∀ s s' : Stmt, s.Plain → s'.Plain → s.text = s'.text →
      s.Alike s' ∧
        ((∀ t ∈ s.names, t.kind = .identifier) → (∀ t ∈ s'.names, t.kind = .identifier) →
          s.bare = s'.bare)) ∧
    ∀ e e' : Expr, e.Plain → e'.Plain → e.text = e'.text →
      e.Alike e' ∧
        ((∀ t ∈ e.reads, t.kind = .identifier) → (∀ t ∈ e'.reads, t.kind = .identifier) →
          e.bare = e'.bare) := by
  constructor
  · intro s s' h h' heq
    rw [← s.text_dump, ← s'.text_dump] at heq
    have halike := Stmt.alike_of_dump_eq h h' (Dump.eq_of_text_eq h.readable h'.readable heq)
    exact ⟨halike, halike.bare_eq⟩
  · intro e e' h h' heq
    rw [← e.text_dump, ← e'.text_dump] at heq
    have halike := Expr.alike_of_dump_eq h h' (Dump.eq_of_text_eq h.readable h'.readable heq)
    exact ⟨halike, halike.bare_eq⟩

/-- Both statements are dumped as `(var x (- (group -1) nil))`.  They differ in lines and in
the literal of the minus. -/
theorem same_text_same_tree_minus :
    let statement (line : Nat) (literal : Option Literal) : Stmt :=
      .declare ⟨.identifier, "x", none, line⟩
        (some (.binary (.group (.literal (.number (Float.ofBits 0xBFF0000000000000))))
          ⟨.minus, "-", literal, line⟩ (.literal .nil)))
    (statement 1 none).text = "(var x (- (group -1) nil))" ∧
      (statement 7 (some (.string "-"))).text = "(var x (- (group -1) nil))" ∧
      (statement 1 none).bare = (statement 7 (some (.string "-"))).bare := by
  intro statement
  have hplain (line : Nat) (literal : Option Literal) : (statement line literal).Plain := by
    have hname : Token.IsName ⟨.identifier, "x", none, line⟩ :=
      ⟨Role.fits_identifier_iff.mpr ⟨'x', [], by simp, by decide, nofun⟩, by simp [Kind.keywords]⟩
    refine ⟨hname, ?_⟩
    rintro _ ⟨⟩
    have hfinite : (Float.ofBits 0xBFF0000000000000).isFinite = true := by decide +kernel
    exact ⟨by simp [binaryOperators], hfinite, trivial⟩
  have hnames (line : Nat) (literal : Option Literal) :
      ∀ t ∈ (statement line literal).names, t.kind = .identifier :=
    List.forall_mem_singleton.mpr rfl
  have htext : (statement 1 none).text = "(var x (- (group -1) nil))" := by decide +kernel
  have htext' : (statement 7 (some (.string "-"))).text = "(var x (- (group -1) nil))" := by
    decide +kernel
  have htrees := same_text_same_tree.1 _ _ (hplain 1 none) (hplain 7 (some (.string "-")))
    (htext.trans htext'.symm)
  exact ⟨htext, htext', htrees.2 (hnames _ _) (hnames _ _)⟩

end LoxLang
