import Netlisting.Proofs.Decimal.Printing
import Netlisting.Proofs.Expr.Grammar

/-!
# Texts of symbolic values are read back

A symbolic value is the text of an expression, put together from the texts of its operands:
`Rendered` says how.  Every operation has its own brackets, so the grammar derives the expression
from such a text, whatever the operations around it are (`derives_of_rendered`), and the text is
read as the expression it was made for (`parse_of_rendered`).

The other direction needs less: the names in an expression that has been read are made of the
characters of names (`isName_of_parse`), so that they are read back where they are written; and no
text crashes the reader that has no Kelvin sign in it (`kelvinSign_mem_of_parse`).
-/

namespace Netlisting.Expr

/-- The expression that a printed number is read as: a minus sign is an operator. -/
def ofDecimal (a : Decimal) : Expr :=
  if a.normalize.negative then .neg (.number a.magnitude) else .number a.magnitude

/-- The texts that symbolic values have, with the expressions that they stand for. -/
inductive Rendered : List Char → Expr → Prop where
  | number (a : Decimal) : Rendered a.print (ofDecimal a)
  | name (n : String) (h : IsName n) : Rendered n.toList (.name n)
  | neg {t : List Char} {e : Expr} (operand : Rendered t e) :
    Rendered ('-' :: '(' :: (t ++ [')'])) (.neg e)
  | binary (op : BinaryOp) {s t : List Char} {l r : Expr} (left : Rendered s l)
      (right : Rendered t r) : Rendered ('(' :: (s ++ op.symbol :: (t ++ [')']))) (.binary op l r)

/-! ### Printed numbers -/

/-- The characters that end an operand. -/
def stopping : List Char := ['+', '-', '*', '/', ')', '\x7d']

/-- What stands behind an operand. -/
def Stops (rest : List Char) : Prop := ∀ c ∈ rest.head?, c ∈ stopping

theorem Stops.apply_eq_false {rest : List Char} (h : Stops rest) {p : Char → Bool}
    (hp : stopping.any p = false) : ∀ c ∈ rest.head?, p c = false := by
  intro c hc
  simpa using List.any_eq_false.1 hp c (h c hc)

/-- The digits of a decimal are the number without its sign. -/
theorem leads_digits {a : Decimal} {whole places rest : List Char}
    (h : Decimal.Digits a.magnitude.mantissa a.magnitude.scale whole places) (hrest : Stops rest) :
    (Token.number a.magnitude).Leads
      (whole ++ (if a.magnitude.scale = 0 then [] else '.' :: places) ++ rest) rest := by
  have hpointed : (if a.magnitude.scale = 0 then [] else '.' :: places) = pointed places := by
    simp only [pointed, ← h.length_places, List.length_eq_zero_iff]
  have hspells : Numeral.Spells ⟨whole, places, none⟩ (whole ++ pointed places) :=
    ⟨h.isDigit_whole, h.isDigit_places, .inl h.whole_ne_nil, [], .none, by rw [List.append_nil]⟩
  have hvalue : Numeral.value? ⟨whole, places, none⟩ = some a.magnitude := by
    unfold Numeral.value?
    rw [Decimal.ofDigits?_eq h a.magnitude.mantissa_lt a.magnitude.scale_le]
    rfl
  have hletters : ∀ c ∈ rest.head?, isLetter c = false := hrest.apply_eq_false (by decide)
  have hnone : ∀ s ∈ suffixes, ∀ other, ¬ Begins s.1.toList rest other := by
    intro s hs other hbegins
    obtain ⟨c, hc, hletter⟩ := isLetter_of_begins hs hbegins
    exact Bool.false_ne_true ((hletters c hc).symm.trans hletter)
  have hends : ∀ c ∈ rest.head?, Decimal.isDigit c = false ∧ c ≠ '.' ∧ c ≠ 'e' ∧ c ≠ 'E' := by
    intro c hc
    have hpoint : (c == '.' || c == 'e' || c == 'E') = false :=
      hrest.apply_eq_false (p := fun c => c == '.' || c == 'e' || c == 'E') (by decide) c hc
    simp only [Bool.or_eq_false_iff, beq_eq_false_iff_ne, and_assoc] at hpoint
    exact ⟨hrest.apply_eq_false (by decide) c hc, hpoint⟩
  rw [hpointed]
  exact .number [] (foremost_of_head? hspells hends) hvalue (.plain hnone)
    (List.forall_mem_nil _) hletters

/-! ### Whole texts -/

theorem stops_symbol (op : BinaryOp) (rest : List Char) : Stops (op.symbol :: rest) := by
  rintro c ⟨⟩
  cases op <;> decide

theorem stops_closing (b : Bracket) (rest : List Char) : Stops (b.closes :: rest) := by
  rintro c ⟨⟩
  cases b <;> decide

theorem written_bracket (b : Bracket) {ts : List Token} {t rest : List Char}
    (h : Written ts (t ++ b.closes :: rest) (b.closes :: rest)) :
    Written (.opening b :: (ts ++ [.closing b])) (b.opens :: (t ++ [b.closes]) ++ rest) rest := by
  have hclosing : Written [.closing b] (b.closes :: rest) rest := .token (.closing b _) .nil
  have hinner := h.append hclosing
  rw [List.cons_append, List.append_assoc]
  exact .token (.opening b _) hinner

theorem derives_binary {ls rs : List Token} {l r : Expr} (op : BinaryOp)
    (hleft : Derives .unary ls l) (hright : Derives .unary rs r) :
    Derives .sum (ls ++ .operator op :: rs) (.binary op l r) := by
  cases op with
  | add => exact .sum (.inl rfl) (.ofProduct (.ofUnary hleft)) (.ofUnary hright)
  | sub => exact .sum (.inr rfl) (.ofProduct (.ofUnary hleft)) (.ofUnary hright)
  | mul => exact .ofProduct (.product (.inl rfl) (.ofUnary hleft) hright)
  | div => exact .ofProduct (.product (.inr rfl) (.ofUnary hleft) hright)

/-- An operand is derived from its text, wherever it stands. -/
theorem derives_of_rendered {t : List Char} {e : Expr} (h : Rendered t e) :
    ∃ ts, Derives .unary ts e ∧ ∀ rest, Stops rest → Written ts (t ++ rest) rest := by
  induction h with
  | number a =>
      obtain ⟨whole, places, hdigits, heq⟩ := Decimal.print_eq a
      rw [heq, ofDecimal]
      by_cases hneg : a.normalize.negative = true
      · rw [if_pos hneg, if_pos hneg]
        exact ⟨_, .neg (.ofAtom (.number a.magnitude)), fun rest hrest =>
          .token (.operator .sub _) (.token (leads_digits hdigits hrest) .nil)⟩
      · rw [if_neg hneg, if_neg hneg]
        exact ⟨_, .ofAtom (.number a.magnitude), fun rest hrest =>
          .token (leads_digits hdigits hrest) .nil⟩
  | name n hn => exact ⟨_, .ofAtom (.name n), fun rest _ => .token (.name hn _) .nil⟩
  | neg operand ih =>
      obtain ⟨ts, hderives, hwritten⟩ := ih
      have hbracket := Derives.bracket .round (.ofProduct (.ofUnary hderives))
      refine ⟨_, .neg (.ofAtom hbracket), fun rest _ => ?_⟩
      exact .token (.operator .sub _)
        (written_bracket .round (hwritten _ (stops_closing .round rest)))
  | @binary op s t l r left right ihl ihr =>
      obtain ⟨ls, hleft, hls⟩ := ihl
      obtain ⟨rs, hright, hrs⟩ := ihr
      refine ⟨_, .ofAtom (.bracket .round (derives_binary op hleft hright)), fun rest _ => ?_⟩
      have hoperands : Written (ls ++ .operator op :: rs) (s ++ op.symbol :: t ++ ')' :: rest)
          (')' :: rest) := by
        rw [List.append_assoc, List.cons_append]
        exact (hls _ (stops_symbol op _)).append
          (.token (.operator op _) (hrs _ (stops_closing .round rest)))
      have happend : s ++ op.symbol :: t ++ [')'] = s ++ op.symbol :: (t ++ [')']) := by simp
      rw [← happend]
      exact written_bracket .round hoperands

theorem parse_of_rendered {text : String} {e : Expr} (h : Rendered text.toList e) :
    parse text = .ok e := by
  obtain ⟨ts, hderives, hwritten⟩ := derives_of_rendered h
  have hall := hwritten [] nofun
  rw [List.append_nil] at hall
  exact parse_of_derives (.ofProduct (.ofUnary hderives)) hall

/-- The braces around the text of a symbolic value make no difference. -/
theorem parse_shown_of_rendered {text : String} {e : Expr} (h : Rendered text.toList e) :
    parse (Value.symbolic text).shown = .ok e := by
  obtain ⟨ts, hderives, hwritten⟩ := derives_of_rendered h
  have hbraced := written_bracket .curly (hwritten _ (stops_closing .curly []))
  rw [List.append_nil] at hbraced
  refine parse_of_derives (.ofProduct (.ofUnary (.ofAtom (.bracket .curly
    (.ofProduct (.ofUnary hderives)))))) ?_
  simpa [Value.shown, Bracket.opens, Bracket.closes] using hbraced

/-! ### The names in an expression -/

theorem token_of_mem_names {p : Phrase} {ts : List Token} {e : Expr} (h : Derives p ts e) :
    ∀ n ∈ e.names, Token.name n ∈ ts := by
  induction h with
  | number => exact nofun
  | text => exact nofun
  | name n => simp [names]
  | bracket b _ ih => exact fun n hn => by simp [ih n hn]
  | neg _ ih => exact fun n hn => List.mem_cons_of_mem _ (ih n hn)
  | ofAtom _ ih => exact ih
  | ofUnary _ ih => exact ih
  | ofProduct _ ih => exact ih
  | product _ _ _ ihl ihr =>
      intro n hn
      rcases List.mem_append.1 hn with hn | hn
      · exact List.mem_append_left _ (ihl n hn)
      · exact List.mem_append_right _ (List.mem_cons_of_mem _ (ihr n hn))
  | sum _ _ _ ihl ihr =>
      intro n hn
      rcases List.mem_append.1 hn with hn | hn
      · exact List.mem_append_left _ (ihl n hn)
      · exact List.mem_append_right _ (List.mem_cons_of_mem _ (ihr n hn))

theorem isName_of_written {ts : List Token} {chars rest : List Char} (h : Written ts chars rest)
    {n : String} (hn : Token.name n ∈ ts) : IsName n := by
  induction h with
  | nil => cases hn
  | space _ _ ih => exact ih hn
  | token htok _ ih =>
      rcases List.mem_cons.1 hn with heq | hn
      · cases heq
        cases htok with
        | name hname => exact hname
      · exact ih hn

theorem isName_of_parse {text : String} {e : Expr} (h : parse text = .ok e) :
    ∀ n ∈ e.names, IsName n := by
  obtain ⟨ts, hderives, hwritten⟩ := derives_of_parse h
  exact fun n hn => isName_of_written hwritten (token_of_mem_names hderives n hn)

/-! ### Where the reader crashes -/

/-- A reader crashes only where a Kelvin sign is ahead. -/
def CrashesAtKelvin (read : List Char → Reading Expr) : Prop :=
  ∀ ⦃chars⦄, read chars = .crash → kelvinSign ∈ chars

theorem skipSpace_suffix (chars : List Char) : skipSpace chars <:+ chars :=
  List.dropWhile_suffix _

theorem crashes_readNumber : CrashesAtKelvin readNumber := by
  intro chars h
  unfold readNumber at h
  split at h
  · cases h
  · next numeral rest hnumeral =>
    obtain ⟨t, rfl, _⟩ := of_readNumeral hnumeral
    split at h
    · cases h
    · split at h
      · next hkelvin => exact List.mem_append_right _ (List.mem_of_mem_head? hkelvin)
      · split at h
        · cases h
        · split at h <;> cases h

theorem readText_ne_crash (chars : List Char) : readText chars ≠ .crash := by
  unfold readText
  split
  · split <;> exact nofun
  · exact nofun

theorem readName_ne_crash (chars : List Char) : readName chars ≠ .crash := by
  unfold readName
  split
  · split <;> exact nofun
  · exact nofun

theorem crash_of_orElse {first : Reading Expr} {second : Unit → Reading Expr}
    (h : Reading.orElse first second = .crash) : first = .crash ∨ second () = .crash := by
  unfold Reading.orElse at h
  split at h
  · exact .inr h
  · exact .inl h

section

variable {inner : List Char → Reading Expr} (h : CrashesAtKelvin inner)

include h

theorem crashes_bracketed (close : Char) (from_ : Option (List Char)) :
    CrashesAtKelvin (bracketed inner close from_) := by
  intro chars hcrash
  unfold bracketed at hcrash
  split at hcrash
  · split at hcrash
    · split at hcrash <;> cases hcrash
    · cases hcrash
  · cases hcrash
  · cases hcrash
  · next hinner => exact (skipSpace_suffix chars).subset (h hinner)

theorem crashes_atom : CrashesAtKelvin (atom inner) := by
  intro chars hcrash
  rcases crash_of_orElse hcrash with hcrash | hcrash
  · exact crashes_readNumber hcrash
  rcases crash_of_orElse hcrash with hcrash | hcrash
  · exact (readText_ne_crash chars hcrash).elim
  rcases crash_of_orElse hcrash with hcrash | hcrash
  · exact (readName_ne_crash chars hcrash).elim
  split at hcrash
  · exact List.mem_cons_of_mem _ (crashes_bracketed h _ _ hcrash)
  · exact List.mem_cons_of_mem _ (crashes_bracketed h _ _ hcrash)
  · cases hcrash

theorem crashes_spacedAtom : CrashesAtKelvin (spacedAtom inner) := by
  intro chars hcrash
  unfold spacedAtom at hcrash
  split at hcrash
  · cases hcrash
  · cases hcrash
  · cases hcrash
  · next hatom => exact (skipSpace_suffix chars).subset (crashes_atom h hatom)

end

section

variable {op? : Char → Option BinaryOp} {operand : List Char → Reading Expr} {p : Phrase}
  (h : CrashesAtKelvin operand) (hsound : Sound p operand)

include h hsound

theorem crashes_chainFrom (left : Expr) : CrashesAtKelvin (chainFrom op? operand left) := by
  intro chars hcrash
  fun_induction chainFrom op? operand left chars with
  | case3 left chars c rest hspace op hop right after hoperand hlength ih =>
      obtain ⟨_, _, hwritten⟩ := hsound hoperand
      have hrest : after <:+ chars := hwritten.suffix.trans ((skipSpace_suffix rest).trans
        ((List.suffix_cons ..).trans (hspace ▸ skipSpace_suffix chars)))
      exact hrest.subset (ih hcrash)
  | case7 left chars c rest hspace op hop hoperand =>
      have hrest : skipSpace rest <:+ chars := (skipSpace_suffix rest).trans
        ((List.suffix_cons ..).trans (hspace ▸ skipSpace_suffix chars))
      exact hrest.subset (h hoperand)
  | _ => cases hcrash

theorem crashes_chain : CrashesAtKelvin (chain op? operand) := by
  intro chars hcrash
  unfold chain at hcrash
  split at hcrash
  · next hfirst =>
    obtain ⟨_, _, hwritten⟩ := hsound hfirst
    exact hwritten.suffix.subset (crashes_chainFrom h hsound _ hcrash)
  · cases hcrash
  · cases hcrash
  · next hfirst => exact h hfirst

end

theorem crashes_sum {read : List Char → Reading Expr} (h : CrashesAtKelvin read)
    (hsound : Sound .unary read) : CrashesAtKelvin (sum read) :=
  crashes_chain (crashes_chain h hsound) (sound_chain joins_product hsound)

theorem crashes_unary (depth : Nat) : CrashesAtKelvin (unary depth) := by
  induction depth with
  | zero => exact nofun
  | succ depth ih =>
      intro chars hcrash
      rw [unary] at hcrash
      split at hcrash
      · next rest hminus =>
        split at hcrash
        · cases hcrash
        · cases hcrash
        · cases hcrash
        · next hoperand =>
          have hrest : skipSpace rest <:+ chars := (skipSpace_suffix rest).trans
            ((List.suffix_cons ..).trans (hminus ▸ skipSpace_suffix chars))
          exact hrest.subset (ih hoperand)
      · exact crashes_spacedAtom (crashes_sum ih (sound_unary depth)) hcrash

/-- A text crashes the reader only if a Kelvin sign stands in it. -/
theorem kelvinSign_mem_of_parse {text input : String} (h : parse text = .error (.crash input)) :
    kelvinSign ∈ text.toList := by
  unfold parse at h
  dsimp only at h
  split at h
  · split at h <;> cases h
  · cases h
  · cases h
  · next hsum =>
    exact (skipSpace_suffix _).subset (crashes_sum (crashes_unary _) (sound_unary _) hsum)

end Netlisting.Expr
