import Netlisting.Proofs.Expr.Tokens

/-!
# The grammar of expressions

`Derives` is the grammar: a sum is a chain of products, a product a chain of minus signs in front of
atoms, and an atom a single token or a sum in brackets.  Chains grow to the right, so operators of
one level associate to the left, and brackets leave no trace in the tree.

The parser accepts just what the grammar derives (`parse_eq_ok_iff`).  It finds nothing else
(`Sound`), because each of its readers takes what one phrase of the grammar derives and leaves the
rest.  It finds all of it (`Reads`), by induction on the derivation.  A chain that is derived up to
one operand is read up to there, so the statement about a chain is not what it reads but that the
reader goes on with the same tree behind it.
-/

namespace Netlisting.Expr

inductive Phrase where
  | sum
  | product
  | unary
  | atom
  deriving DecidableEq

/-- The trees of the phrases that tokens form. -/
inductive Derives : Phrase → List Token → Expr → Prop where
  | number (value : Decimal) : Derives .atom [.number value] (.number value)
  | text (s : String) : Derives .atom [.text s] (.text s)
  | name (n : String) : Derives .atom [.name n] (.name n)
  | bracket (b : Bracket) {ts : List Token} {e : Expr} (h : Derives .sum ts e) :
    Derives .atom (.opening b :: (ts ++ [.closing b])) e
  | ofAtom {ts : List Token} {e : Expr} (h : Derives .atom ts e) : Derives .unary ts e
  | neg {ts : List Token} {e : Expr} (h : Derives .unary ts e) :
    Derives .unary (.operator .sub :: ts) (.neg e)
  | ofUnary {ts : List Token} {e : Expr} (h : Derives .unary ts e) : Derives .product ts e
  | product {op : BinaryOp} (hop : op = .mul ∨ op = .div) {ls rs : List Token} {l r : Expr}
      (hleft : Derives .product ls l) (hright : Derives .unary rs r) :
      Derives .product (ls ++ .operator op :: rs) (.binary op l r)
  | ofProduct {ts : List Token} {e : Expr} (h : Derives .product ts e) : Derives .sum ts e
  | sum {op : BinaryOp} (hop : op = .add ∨ op = .sub) {ls rs : List Token} {l r : Expr}
      (hleft : Derives .sum ls l) (hright : Derives .product rs r) :
      Derives .sum (ls ++ .operator op :: rs) (.binary op l r)

theorem productOp?_eq_some_iff {c : Char} {op : BinaryOp} :
    productOp? c = some op ↔ c = op.symbol ∧ (op = .mul ∨ op = .div) := by
  unfold productOp?
  split
  · cases op <;> simp [BinaryOp.symbol]
  · cases op <;> simp [BinaryOp.symbol]
  · next hmul hdiv =>
    refine iff_of_false nofun ?_
    rintro ⟨rfl, rfl | rfl⟩
    · exact hmul rfl
    · exact hdiv rfl

theorem sumOp?_eq_some_iff {c : Char} {op : BinaryOp} :
    sumOp? c = some op ↔ c = op.symbol ∧ (op = .add ∨ op = .sub) := by
  unfold sumOp?
  split
  · cases op <;> simp [BinaryOp.symbol]
  · cases op <;> simp [BinaryOp.symbol]
  · next hadd hsub =>
    refine iff_of_false nofun ?_
    rintro ⟨rfl, rfl | rfl⟩
    · exact hadd rfl
    · exact hsub rfl

/-! ### Nothing else is read -/

/-- What is read is a phrase. -/
def Sound (p : Phrase) (read : List Char → Reading Expr) : Prop :=
  ∀ ⦃chars rest e⦄, read chars = .done e rest → ∃ ts, Derives p ts e ∧ Written ts chars rest

section

variable {inner : List Char → Reading Expr} (hinner : Sound .sum inner)

include hinner

theorem derives_of_bracketed {b : Bracket} {from_ : Option (List Char)} {chars rest : List Char}
    {e : Expr} (h : bracketed inner b.closes from_ chars = .done e rest) :
    ∃ ts, Derives .sum ts e ∧ Written (ts ++ [.closing b]) chars rest := by
  unfold bracketed at h
  split at h
  · next e' middle hsum =>
    obtain ⟨ts, hderives, hwritten⟩ := hinner hsum
    split at h
    · next c after hskip =>
      split at h
      · next hclose =>
        cases h
        have hclosing : Written [.closing b] (skipSpace middle) rest := by
          rw [hskip, hclose]
          exact .token (.closing b _) .nil
        exact ⟨ts, hderives, hwritten.of_skipSpace.append hclosing.of_skipSpace⟩
      · cases h
    · cases h
  · cases h
  · cases h
  · cases h

omit hinner in
theorem of_orElse {first : Reading Expr} {second : Unit → Reading Expr} {e : Expr}
    {rest : List Char} (h : Reading.orElse first second = .done e rest) :
    first = .done e rest ∨ second () = .done e rest := by
  unfold Reading.orElse at h
  split at h
  · exact .inr h
  · exact .inl h

theorem sound_atom : Sound .atom (atom inner) := by
  intro chars rest e h
  rcases of_orElse h with h | h
  · obtain ⟨value, rfl, hleads⟩ := leads_of_readNumber h
    exact ⟨_, .number value, .token hleads .nil⟩
  rcases of_orElse h with h | h
  · obtain ⟨s, rfl, hleads⟩ := leads_of_readText h
    exact ⟨_, .text s, .token hleads .nil⟩
  rcases of_orElse h with h | h
  · obtain ⟨n, rfl, hleads⟩ := leads_of_readName h
    exact ⟨_, .name n, .token hleads .nil⟩
  split at h
  · obtain ⟨ts, hderives, hwritten⟩ := derives_of_bracketed (b := .round) hinner h
    exact ⟨_, .bracket .round hderives, .token (.opening .round _) hwritten⟩
  · obtain ⟨ts, hderives, hwritten⟩ := derives_of_bracketed (b := .curly) hinner h
    exact ⟨_, .bracket .curly hderives, .token (.opening .curly _) hwritten⟩
  · cases h

theorem sound_spacedAtom : Sound .atom (spacedAtom inner) := by
  intro chars rest e h
  unfold spacedAtom at h
  split at h
  · next after hatom =>
    cases h
    obtain ⟨ts, hderives, hwritten⟩ := sound_atom hinner hatom
    have hspaced := hwritten.of_skipSpace.append (Written.skip after)
    rw [List.append_nil] at hspaced
    exact ⟨ts, hderives, hspaced⟩
  · cases h
  · cases h
  · cases h

end

/-- The operators of one level, between phrases `p` and `q`. -/
structure Joins (op? : Char → Option BinaryOp) (p q : Phrase) : Prop where
  operand : ∀ {ts e}, Derives q ts e → Derives p ts e
  symbol : ∀ {c op}, op? c = some op → c = op.symbol
  binary : ∀ {c op ls l rs r}, op? c = some op → Derives p ls l → Derives q rs r →
    Derives p (ls ++ .operator op :: rs) (.binary op l r)

theorem joins_product : Joins productOp? .product .unary where
  operand := .ofUnary
  symbol h := (productOp?_eq_some_iff.1 h).1
  binary h := .product (productOp?_eq_some_iff.1 h).2

theorem joins_sum : Joins sumOp? .sum .product where
  operand := .ofProduct
  symbol h := (sumOp?_eq_some_iff.1 h).1
  binary h := .sum (sumOp?_eq_some_iff.1 h).2

section

variable {op? : Char → Option BinaryOp} {p q : Phrase} {operand : List Char → Reading Expr}

/-- What is before the chain goes on is kept in `before`, and grows by an operand at a time. -/
theorem derives_of_chainFrom (hjoins : Joins op? p q) (hoperand : Sound q operand) {left e : Expr}
    {start chars rest : List Char} {before : List Token} (hleft : Derives p before left)
    (hbefore : Written before start chars) (h : chainFrom op? operand left chars = .done e rest) :
    ∃ ts, Derives p ts e ∧ Written ts start rest := by
  fun_induction chainFrom op? operand left chars generalizing before with
  | case3 left chars c tail hspace op hop right after hright hlength ih =>
      obtain ⟨ts, hderives, hwritten⟩ := hoperand hright
      have hop' : Written (.operator op :: ts) (skipSpace chars) after := by
        rw [hspace, hjoins.symbol hop]
        exact .token (.operator op _) hwritten.of_skipSpace
      exact ih (hjoins.binary hop hleft hderives) (hbefore.append hop'.of_skipSpace) h
  | case6 => cases h
  | case7 => cases h
  | _ =>
      cases h
      exact ⟨before, hleft, hbefore⟩

theorem sound_chain (hjoins : Joins op? p q) (hoperand : Sound q operand) :
    Sound p (chain op? operand) := by
  intro chars rest e h
  unfold chain at h
  split at h
  · next hfirst =>
    obtain ⟨ts, hderives, hwritten⟩ := hoperand hfirst
    exact derives_of_chainFrom hjoins hoperand (hjoins.operand hderives) hwritten h
  · cases h
  · cases h
  · cases h

end

theorem sound_sum {read : List Char → Reading Expr} (h : Sound .unary read) :
    Sound .sum (sum read) :=
  sound_chain joins_sum (sound_chain joins_product h)

theorem sound_unary (depth : Nat) : Sound .unary (unary depth) := by
  induction depth with
  | zero => exact nofun
  | succ depth ih =>
      intro chars rest e h
      rw [unary] at h
      split at h
      · next tail hminus =>
        split at h
        · next hoperand =>
          cases h
          obtain ⟨ts, hderives, hwritten⟩ := ih hoperand
          have hneg : Written (.operator .sub :: ts) (skipSpace chars) rest := by
            rw [hminus]
            exact .token (.operator .sub _) hwritten.of_skipSpace
          exact ⟨_, .neg hderives, hneg.of_skipSpace⟩
        · cases h
        · cases h
        · cases h
      · obtain ⟨ts, hderives, hwritten⟩ := sound_spacedAtom (sound_sum ih) h
        exact ⟨ts, .ofAtom hderives, hwritten⟩

theorem derives_of_parse {text : String} {e : Expr} (h : parse text = .ok e) :
    ∃ ts, Derives .sum ts e ∧ Written ts text.toList [] := by
  unfold parse at h
  dsimp only at h
  split at h
  · next rest hsum =>
    split at h
    · next hnone =>
      cases h
      obtain ⟨ts, hderives, hwritten⟩ := sound_sum (sound_unary _) hsum
      have hall := hwritten.of_skipSpace.append (Written.skip rest)
      rw [List.append_nil, hnone] at hall
      exact ⟨ts, hderives, hall⟩
    · cases h
  · cases h
  · cases h
  · cases h

/-! ### What stands behind a phrase -/

/-- The characters that can follow a phrase, once space is skipped. -/
def ending : List Char :=
  [BinaryOp.add, .sub, .mul, .div].map BinaryOp.symbol ++ [Bracket.round, .curly].map Bracket.closes

def Ending (rest : List Char) : Prop := ∀ c ∈ (skipSpace rest).head?, c ∈ ending

theorem Ending.apply_eq_false {rest : List Char} (h : Ending rest) {p : Char → Bool}
    (hp : ([' ', '\t', '\r', '\n'] ++ ending).any p = false) : ∀ c ∈ rest.head?, p c = false := by
  intro c hc
  rw [List.any_append, Bool.or_eq_false_iff] at hp
  cases hspace : isSpace c with
  | true =>
      by_contra hpc
      exact Bool.false_ne_true ((isSpace_of_apply (by simpa using hpc) hp.1).symm.trans hspace)
  | false =>
      cases rest with
      | nil => cases hc
      | cons d rest =>
          cases hc
          have hmem : c ∈ ending := h c (by rw [skipSpace_cons rest hspace]; rfl)
          simpa using List.any_eq_false.1 hp.2 c hmem

theorem ending_of_operator {rest tail : List Char} {op : BinaryOp}
    (h : skipSpace rest = op.symbol :: tail) : Ending rest := by
  intro c hc
  rw [h] at hc
  obtain rfl := Option.some.inj hc
  cases op <;> decide

theorem ending_of_closing {rest tail : List Char} {b : Bracket}
    (h : skipSpace rest = b.closes :: tail) : Ending rest := by
  intro c hc
  rw [h] at hc
  obtain rfl := Option.some.inj hc
  cases b <;> decide

theorem Ending.congr {rest rest' : List Char} (h : Ending rest)
    (heq : skipSpace rest' = skipSpace rest) : Ending rest' := by
  unfold Ending
  rwa [heq]

/-! ### Reading one level -/

theorem skipSpace_skipSpace (chars : List Char) : skipSpace (skipSpace chars) = skipSpace chars :=
  (Written.skip chars).skipSpace_eq.symm

theorem spacedAtom_of_atom {inner : List Char → Reading Expr} {chars after rest : List Char}
    {e : Expr} (h : atom inner (skipSpace chars) = .done e after)
    (hafter : skipSpace after = skipSpace rest) :
    spacedAtom inner chars = .done e (skipSpace rest) := by
  unfold spacedAtom
  rw [h]
  exact congrArg _ hafter

section

variable {inner : List Char → Reading Expr} {chars rest : List Char}

theorem atom_of_number {value : Decimal} (h : (Token.number value).Leads chars rest)
    (hrest : Ending rest) : atom inner chars = .done (.number value) rest := by
  have hkelvin : rest.head? ≠ some kelvinSign := by
    intro heq
    have hne := hrest.apply_eq_false (p := (· == kelvinSign)) (by decide) kelvinSign heq
    simp at hne
  unfold atom
  rw [readNumber_of_leads h hkelvin]
  rfl

theorem atom_of_text {s : String} (h : (Token.text s).Leads chars rest) :
    atom inner chars = .done (.text s) rest := by
  have hread := readText_of_leads h
  cases h
  unfold atom
  rw [readNumber_cons _ (by decide) (by decide), hread]
  rfl

theorem atom_of_name {n : String} (h : (Token.name n).Leads chars rest) (hrest : Ending rest) :
    atom inner chars = .done (.name n) rest := by
  have hread := readName_of_leads h (hrest.apply_eq_false (by decide))
  cases h with
  | name hname =>
      obtain ⟨c, more, hn, hstart⟩ := hname.start
      have hpoint : c ≠ '.' := ne_of_apply hstart (by decide)
      have hquote : c ≠ '"' := ne_of_apply hstart (by decide)
      unfold atom
      rw [hread, hn, List.cons_append,
        readNumber_cons _ (not_isDigit_of_isNameStart hstart) hpoint, readText_cons _ hquote]
      rfl

/-- Nothing but a bracket is tried at a bracket. -/
theorem atom_of_opening {b : Bracket} {e : Expr}
    (h : ∀ from_, bracketed inner b.closes from_ chars = .done e rest) :
    atom inner (b.opens :: chars) = .done e rest := by
  unfold atom
  cases b with
  | round =>
      rw [Bracket.opens, readNumber_cons _ (by decide) (by decide), readText_cons _ (by decide)]
      exact h _
  | curly =>
      rw [Bracket.opens, readNumber_cons _ (by decide) (by decide), readText_cons _ (by decide)]
      exact h _

theorem bracketed_of_inner {b : Bracket} {middle : List Char} {e : Expr}
    (h : inner (skipSpace chars) = .done e middle) (hclose : skipSpace middle = b.closes :: rest)
    (from_ : Option (List Char)) : bracketed inner b.closes from_ chars = .done e rest := by
  unfold bracketed
  rw [h]
  simp only [hclose, if_true]

/-- A minus sign is no atom. -/
theorem atom_minus (rest : List Char) : atom inner ('-' :: rest) = .retry ('-' :: rest) := by
  unfold atom
  rw [readNumber_cons _ (by decide) (by decide), readText_cons _ (by decide)]
  rfl

theorem unary_of_spacedAtom {depth : Nat} {e : Expr}
    (h : spacedAtom (sum (unary depth)) chars = .done e rest) :
    unary (depth + 1) chars = .done e rest := by
  rw [unary]
  split
  · next tail hminus =>
    unfold spacedAtom at h
    rw [hminus, atom_minus] at h
    cases h
  · exact h

theorem unary_minus {depth : Nat} {tail : List Char} {e : Expr}
    (hskip : skipSpace chars = '-' :: tail) (h : unary depth (skipSpace tail) = .done e rest) :
    unary (depth + 1) chars = .done (.neg e) rest := by
  rw [unary, hskip]
  simp only [h]

end

section

variable {op? : Char → Option BinaryOp} {operand : List Char → Reading Expr} {l r : Expr}
  {chars middle tail rest : List Char}

/-- A chain ends where no operator of its level follows. -/
theorem chainFrom_of_head? (h : ∀ c ∈ (skipSpace chars).head?, op? c = none) :
    chainFrom op? operand l chars = .done l chars := by
  rw [chainFrom]
  split
  · rfl
  · next c tail hskip =>
    have hnone : op? c = none := h c (by rw [hskip]; rfl)
    simp only [hnone]

theorem chain_of_operand (h : operand chars = .done l rest) :
    chain op? operand chars = chainFrom op? operand l rest := by
  simp only [chain, h]

/-- A chain goes on behind one more operand. -/
theorem chain_of_operator {op : BinaryOp} (hop : op? op.symbol = some op)
    (hleft : chain op? operand chars = chainFrom op? operand l (skipSpace middle))
    (hskip : skipSpace middle = op.symbol :: tail)
    (hright : operand (skipSpace tail) = .done r (skipSpace rest))
    (hlength : rest.length ≤ tail.length) :
    chain op? operand chars = chainFrom op? operand (.binary op l r) (skipSpace rest) := by
  have hshorter : (skipSpace rest).length < (skipSpace middle).length := by
    have hle : (skipSpace rest).length ≤ rest.length := (List.dropWhile_suffix _).length_le
    rw [hskip, List.length_cons]
    omega
  rw [hleft, chainFrom, skipSpace_skipSpace, hskip]
  rw [hskip] at hshorter
  simp only [hop, hright, hshorter, if_true]

end

/-! ### All of it is read -/

/-- How a phrase is read with something behind it, when brackets may be as deep as it is long. -/
def Reads (ts : List Token) (e : Expr) : Phrase → Prop
  | .atom => ∀ ⦃depth chars rest⦄, ts.length ≤ depth → Written ts chars rest → Ending rest →
    spacedAtom (sum (unary depth)) chars = .done e (skipSpace rest)
  | .unary => ∀ ⦃depth chars rest⦄, ts.length < depth → Written ts chars rest → Ending rest →
    unary depth chars = .done e (skipSpace rest)
  | .product => ∀ ⦃depth chars rest⦄, ts.length < depth → Written ts chars rest → Ending rest →
    chain productOp? (unary depth) chars =
      chainFrom productOp? (unary depth) e (skipSpace rest)
  | .sum => ∀ ⦃depth chars rest⦄, ts.length < depth → Written ts chars rest → Ending rest →
    (∀ c ∈ (skipSpace rest).head?, productOp? c = none) →
    sum (unary depth) chars =
      chainFrom sumOp? (chain productOp? (unary depth)) e (skipSpace rest)

theorem Derives.ne_nil {p : Phrase} {ts : List Token} {e : Expr} (h : Derives p ts e) :
    ts ≠ [] := by
  induction h with
  | ofAtom _ ih => exact ih
  | ofUnary _ ih => exact ih
  | ofProduct _ ih => exact ih
  | product => simp
  | sum => simp
  | _ => exact List.cons_ne_nil _ _

/-- Space in front of a phrase makes no difference. -/
theorem Derives.written_skipSpace {p : Phrase} {ts : List Token} {e : Expr} (h : Derives p ts e)
    {chars rest : List Char} (hwritten : Written ts chars rest) :
    Written ts (skipSpace chars) rest := by
  obtain ⟨tok, tokens, rfl⟩ := List.exists_cons_of_ne_nil h.ne_nil
  obtain ⟨after, hleads, hafter⟩ := hwritten.leads
  exact .token hleads hafter

/-- What is before an operator, and what is behind it. -/
theorem Written.split_operator {ls rs : List Token} {op : BinaryOp} {chars rest : List Char}
    (h : Written (ls ++ .operator op :: rs) chars rest) :
    ∃ middle tail, Written ls chars middle ∧ skipSpace middle = op.symbol :: tail ∧
      Written rs tail rest := by
  obtain ⟨middle, hleft, hright⟩ := h.split
  obtain ⟨tail, hleads, htail⟩ := hright.leads
  refine ⟨middle, tail, hleft, ?_, htail⟩
  generalize skipSpace middle = front at hleads
  cases hleads
  rfl

theorem reads_bracket (b : Bracket) {ts : List Token} {e : Expr} (hts : Derives .sum ts e)
    (h : Reads ts e .sum) : Reads (.opening b :: (ts ++ [.closing b])) e .atom := by
  intro depth chars rest hdepth hwritten _
  simp only [List.length_cons, List.length_append, List.length_nil] at hdepth
  obtain ⟨tail, hopening, htail⟩ := hwritten.leads
  obtain ⟨middle, hinner, hclosing⟩ := htail.split
  obtain ⟨after, hcloses, hafter⟩ := hclosing.leads
  have hopens : skipSpace chars = b.opens :: tail := by
    generalize skipSpace chars = front at hopening
    cases hopening
    rfl
  have hclose : skipSpace middle = b.closes :: after := by
    generalize skipSpace middle = front at hcloses
    cases hcloses
    rfl
  have hends : sum (unary depth) (skipSpace tail) = .done e (skipSpace middle) := by
    rw [h (by omega) (hts.written_skipSpace hinner) (ending_of_closing hclose) ?_]
    · refine chainFrom_of_head? ?_
      rw [skipSpace_skipSpace, hclose]
      cases b <;> simp [Bracket.closes, sumOp?]
    · rw [hclose]
      cases b <;> simp [Bracket.closes, productOp?]
  refine spacedAtom_of_atom ?_ hafter.skipSpace_eq
  rw [hopens]
  exact atom_of_opening (bracketed_of_inner hends (by rw [skipSpace_skipSpace, hclose]))

theorem reads_neg {ts : List Token} {e : Expr} (hts : Derives .unary ts e)
    (h : Reads ts e .unary) : Reads (.operator .sub :: ts) (.neg e) .unary := by
  intro depth chars rest hdepth hwritten hrest
  rw [List.length_cons] at hdepth
  obtain ⟨depth, rfl⟩ : ∃ d, depth = d + 1 := ⟨depth - 1, by omega⟩
  obtain ⟨front, tail, hnone, hskip, htail⟩ :=
    @Written.split_operator [] _ _ _ _ hwritten
  rw [← hnone.skipSpace_eq] at hskip
  exact unary_minus hskip (h (by omega) (hts.written_skipSpace htail) hrest)

theorem reads_product {op : BinaryOp} (hop : op = .mul ∨ op = .div) {ls rs : List Token}
    {l r : Expr} (hrs : Derives .unary rs r) (hl : Reads ls l .product) (hr : Reads rs r .unary) :
    Reads (ls ++ .operator op :: rs) (.binary op l r) .product := by
  intro depth chars rest hdepth hwritten hrest
  simp only [List.length_append, List.length_cons] at hdepth
  obtain ⟨middle, tail, hleft, hskip, hright⟩ := hwritten.split_operator
  have hlength := hright.length_le
  exact chain_of_operator (productOp?_eq_some_iff.2 ⟨rfl, hop⟩)
    (hl (by omega) hleft (ending_of_operator hskip)) hskip
    (hr (by omega) (hrs.written_skipSpace hright) hrest) (by omega)

/-- The product on the right ends where the sum goes on. -/
theorem reads_sum {op : BinaryOp} (hop : op = .add ∨ op = .sub) {ls rs : List Token} {l r : Expr}
    (hrs : Derives .product rs r) (hl : Reads ls l .sum) (hr : Reads rs r .product) :
    Reads (ls ++ .operator op :: rs) (.binary op l r) .sum := by
  intro depth chars rest hdepth hwritten hrest hend
  simp only [List.length_append, List.length_cons] at hdepth
  obtain ⟨middle, tail, hleft, hskip, hright⟩ := hwritten.split_operator
  have hlength := hright.length_le
  have hbefore : ∀ c ∈ (skipSpace middle).head?, productOp? c = none := by
    rw [hskip]
    rcases hop with rfl | rfl <;> simp [BinaryOp.symbol, productOp?]
  have hproduct : chain productOp? (unary depth) (skipSpace tail) = .done r (skipSpace rest) := by
    rw [hr (by omega) (hrs.written_skipSpace hright) hrest]
    exact chainFrom_of_head? (by rwa [skipSpace_skipSpace])
  exact chain_of_operator (sumOp?_eq_some_iff.2 ⟨rfl, hop⟩)
    (hl (by omega) hleft (ending_of_operator hskip) hbefore) hskip hproduct (by omega)

theorem Derives.reads {p : Phrase} {ts : List Token} {e : Expr} (h : Derives p ts e) :
    Reads ts e p := by
  induction h with
  | number value =>
      intro depth chars rest _ hwritten hrest
      obtain ⟨after, hleads, hafter⟩ := hwritten.leads
      have hskip := hafter.skipSpace_eq
      exact spacedAtom_of_atom (atom_of_number hleads (hrest.congr hskip)) hskip
  | text s =>
      intro depth chars rest _ hwritten _
      obtain ⟨after, hleads, hafter⟩ := hwritten.leads
      exact spacedAtom_of_atom (atom_of_text hleads) hafter.skipSpace_eq
  | name n =>
      intro depth chars rest _ hwritten hrest
      obtain ⟨after, hleads, hafter⟩ := hwritten.leads
      have hskip := hafter.skipSpace_eq
      exact spacedAtom_of_atom (atom_of_name hleads (hrest.congr hskip)) hskip
  | bracket b h ih => exact reads_bracket b h ih
  | ofAtom _ ih =>
      intro depth chars rest hdepth hwritten hrest
      obtain ⟨depth, rfl⟩ : ∃ d, depth = d + 1 := ⟨depth - 1, by omega⟩
      exact unary_of_spacedAtom (ih (by omega) hwritten hrest)
  | neg h ih => exact reads_neg h ih
  | ofUnary _ ih =>
      intro depth chars rest hdepth hwritten hrest
      exact chain_of_operand (ih hdepth hwritten hrest)
  | product hop _ hright ihl ihr => exact reads_product hop hright ihl ihr
  | ofProduct _ ih =>
      intro depth chars rest hdepth hwritten hrest hend
      have hproduct := ih hdepth hwritten hrest
      rw [chainFrom_of_head? (by rwa [skipSpace_skipSpace])] at hproduct
      exact chain_of_operand hproduct
  | sum hop _ hright ihl ihr => exact reads_sum hop hright ihl ihr

theorem parse_of_derives {text : String} {ts : List Token} {e : Expr} (h : Derives .sum ts e)
    (hwritten : Written ts text.toList []) : parse text = .ok e := by
  have hlength : ts.length < text.toList.length + 1 := by
    have hle := hwritten.length_le
    rw [List.length_nil] at hle
    omega
  have hsum : sum (unary (text.toList.length + 1)) (skipSpace text.toList) = .done e [] := by
    rw [h.reads hlength (h.written_skipSpace hwritten) nofun nofun]
    exact chainFrom_of_head? nofun
  unfold parse
  dsimp only
  rw [hsum]
  rfl

/-- A text has at most one tree. -/
theorem Derives.unique {text : String} {ts us : List Token} {e f : Expr} (he : Derives .sum ts e)
    (hts : Written ts text.toList []) (hf : Derives .sum us f) (hus : Written us text.toList []) :
    e = f :=
  Except.ok.inj ((parse_of_derives he hts).symm.trans (parse_of_derives hf hus))

/-- The parser accepts the texts of the grammar, and gives their trees. -/
theorem parse_eq_ok_iff (text : String) (e : Expr) :
    parse text = .ok e ↔ ∃ ts, Derives .sum ts e ∧ Written ts text.toList [] := by
  constructor
  · exact derives_of_parse
  · rintro ⟨ts, hderives, hwritten⟩
    exact parse_of_derives hderives hwritten

end Netlisting.Expr
