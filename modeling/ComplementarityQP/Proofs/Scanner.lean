import ComplementarityQP.Json.Reader
import ComplementarityQP.Json.Writer
import Mathlib.Data.Char
import Mathlib.Data.List.Basic
import Mathlib.Tactic.IntervalCases

/-! The text of a JSON value reads back as that value. -/
namespace ComplementarityQP

namespace Json

/-! Strings: every character is read back from its escape. -/

def pieceOf (c : Char) : Piece := if c < ' ' then .unit c.toNat else .char c

theorem hexDigit?_hexChar {n : Nat} (hn : n < 16) : hexDigit? (hexChar n) = some n := by
  interval_cases n <;> decide

theorem pieces_plain {c : Char} (hquote : c ≠ '"') (hslash : c ≠ '\\') (hblank : ¬ c < ' ')
    (cs : List Char) (acc : List Piece) : pieces (c :: cs) acc = pieces cs (.char c :: acc) := by
  rw [pieces.eq_def]
  split <;> simp_all

theorem pieces_escapeChar (c : Char) (cs : List Char) (acc : List Piece) :
    pieces (escapeChar c ++ cs) acc = pieces cs (pieceOf c :: acc) := by
  unfold escapeChar pieceOf
  split
  case isTrue h =>
    subst h
    rfl
  case isFalse hquote =>
    split
    case isTrue h =>
      subst h
      rfl
    case isFalse hslash =>
      split
      case isTrue h =>
        have hlt : c.toNat < 32 := h
        have hunit : unit? '0' '0' (hexChar (c.toNat / 16)) (hexChar (c.toNat % 16)) =
            some c.toNat := by
          simp only [unit?, hexDigit?_hexChar (by omega : c.toNat / 16 < 16),
            hexDigit?_hexChar (by omega : c.toNat % 16 < 16)]
          have hzero : hexDigit? '0' = some 0 := rfl
          simp only [hzero, Option.bind_eq_bind, Option.bind_some, Option.pure_def,
            Option.some.injEq]
          omega
        simp only [List.cons_append, List.nil_append, pieces, hunit, Option.bind_eq_bind,
          Option.bind_some]
      case isFalse hblank => exact pieces_plain hquote hslash hblank cs acc

theorem pieces_quoted (s rest : List Char) (acc : List Piece) :
    pieces (s.flatMap escapeChar ++ '"' :: rest) acc =
      some ((s.map pieceOf).reverse ++ acc, rest) := by
  induction s generalizing acc with
  | nil => rfl
  | cons c s ih =>
    rw [List.flatMap_cons, List.append_assoc, pieces_escapeChar, ih]
    simp

theorem joinPieces_unit {n : Nat} (hn : n < 0xD800) (ps : List Piece) (acc : List Char) :
    joinPieces (.unit n :: ps) acc = joinPieces ps (Char.ofNat n :: acc) := by
  rw [joinPieces.eq_def]
  simp [hn]

theorem joinPieces_pieceOf (s acc : List Char) :
    joinPieces (s.map pieceOf) acc = some (acc.reverse ++ s) := by
  induction s generalizing acc with
  | nil => simp [joinPieces]
  | cons c s ih =>
    rw [List.map_cons, pieceOf]
    split
    case isTrue h =>
      have hlt : c.toNat < 32 := h
      rw [joinPieces_unit (by omega), Char.ofNat_toNat, ih]
      simp
    case isFalse =>
      rw [joinPieces, ih]
      simp

theorem lexString_quoted (s : String) (rest : List Char) :
    lexString (s.toList.flatMap escapeChar ++ '"' :: rest) = some (some s, rest) := by
  simp [lexString, pieces_quoted, joinPieces_pieceOf]

/-- A text without a readable form is written as half of a surrogate pair. -/
theorem lexString_half (rest : List Char) :
    lexString ('\\' :: 'u' :: 'd' :: '8' :: '0' :: '0' :: '"' :: rest) = some (none, rest) := rfl

/-! Numerals. -/

theorem digitsValue_toDigits (n : Nat) : digitsValue (Nat.toDigits 10 n) = n := by
  have hfold : digitsValue (Nat.toDigits 10 n) = Nat.ofDigitChars 10 (Nat.toDigits 10 n) 0 := by
    simp only [digitsValue, Nat.ofDigitChars_eq_foldl, mul_comm]
  rw [hfold, Nat.ofDigitChars_toDigits (by decide) (by decide)]

theorem head?_toDigits {n : Nat} (hn : 0 < n) : (Nat.toDigits 10 n).head? ≠ some '0' := by
  induction n using Nat.strong_induction_on with
  | _ n ih =>
    obtain hlt | hge := Nat.lt_or_ge n 10
    · rw [Nat.toDigits_of_lt_base hlt]
      interval_cases n <;> decide
    · rw [Nat.toDigits_of_base_le (by decide) hge,
        List.head?_append_of_ne_nil _ Nat.toDigits_ne_nil]
      exact ih (n / 10) (by omega) (by omega)

/-- What may stand after a number: nothing that goes on with it. -/
def Ends (cs : List Char) : Prop := ∀ c ∈ cs.head?, c.isDigit = false ∧ c ≠ '.' ∧ c ≠ 'e' ∧ c ≠ 'E'

theorem lexDigits_append {ds cs : List Char} (hne : ds ≠ []) (hds : ∀ c ∈ ds, c.isDigit = true)
    (hcs : ∀ c ∈ cs.head?, c.isDigit = false) : lexDigits (ds ++ cs) = some (ds, cs) := by
  have htake : (ds ++ cs).takeWhile Char.isDigit = ds := by
    rw [List.takeWhile_append_of_pos hds]
    cases cs with
    | nil => simp
    | cons c cs => simp [hcs c rfl]
  have hdrop : (ds ++ cs).dropWhile Char.isDigit = cs := by
    rw [List.dropWhile_append_of_pos hds]
    cases cs with
    | nil => simp
    | cons c cs => simp [hcs c rfl]
  rw [lexDigits, htake, hdrop]
  split
  · contradiction
  · rfl

theorem lexDigits_toDigits (n : Nat) {cs : List Char} (hcs : ∀ c ∈ cs.head?, c.isDigit = false) :
    lexDigits (Nat.toDigits 10 n ++ cs) = some (Nat.toDigits 10 n, cs) :=
  lexDigits_append Nat.toDigits_ne_nil
    (fun _ h => Nat.isDigit_of_mem_toDigits (by decide) (by decide) h) hcs

theorem lexFraction_of_ne {cs : List Char} (h : ∀ c ∈ cs.head?, c ≠ '.') :
    lexFraction cs = some ([], cs) := by
  unfold lexFraction
  split
  · exact absurd rfl (h '.' rfl)
  · rfl

theorem lexExponent_of_ends {cs : List Char} (h : Ends cs) : lexExponent cs = some (none, cs) := by
  cases cs with
  | nil => rfl
  | cons c cs =>
    obtain ⟨-, -, hlower, hupper⟩ := h c rfl
    simp [lexExponent, hlower, hupper]

theorem lexExponent_repr (k : Int) {cs : List Char} (h : Ends cs) :
    lexExponent ('e' :: (k.repr.toList ++ cs)) = some (some k, cs) := by
  have hdigit : ∀ c ∈ cs.head?, c.isDigit = false := fun c hc => (h c hc).1
  cases k with
  | ofNat n =>
    have htext : (Int.ofNat n).repr.toList = Nat.toDigits 10 n := Nat.toList_repr
    have hlex := lexDigits_toDigits n hdigit
    have hall (c : Char) (hc : c ∈ Nat.toDigits 10 n) : c.isDigit = true :=
      Nat.isDigit_of_mem_toDigits (by decide) (by decide) hc
    have hval := digitsValue_toDigits n
    have hsign (c : Char) (hc : c.isDigit = false) (rest : List Char) :
        Nat.toDigits 10 n ++ cs ≠ c :: rest := by
      intro heq
      have hhead : (Nat.toDigits 10 n).head? = some c := by
        rw [← List.head?_append_of_ne_nil _ Nat.toDigits_ne_nil, heq]
        rfl
      rw [hall c (List.mem_of_mem_head? hhead)] at hc
      contradiction
    rw [htext, lexExponent]
    · simp [hlex, hval]
    · exact fun rest => hsign '-' rfl rest
    · exact fun rest => hsign '+' rfl rest
  | negSucc n =>
    have htext : (Int.negSucc n).repr.toList = '-' :: Nat.toDigits 10 (n + 1) := by
      rw [Int.repr]
      simp
    have hlex := lexDigits_toDigits (n + 1) hdigit
    rw [htext]
    simp [lexExponent, hlex, digitsValue_toDigits]
    omega

end Json

/-- An integral literal has no exponent of its own. -/
def Numeral.Proper (l : Numeral) : Prop := l.integral = true → l.exp = 0

namespace Json

def exponentText (l : Numeral) : List Char := if l.integral then [] else 'e' :: l.exp.repr.toList

theorem lexNumber_render {l : Numeral} (hl : l.Proper) {rest : List Char} (h : Ends rest) :
    lexNumber l.negative (Nat.toDigits 10 l.digits ++ (exponentText l ++ rest)) =
      some (l, rest) := by
  obtain ⟨negative, n, k, integral⟩ := l
  have hguard : (Nat.toDigits 10 n).head? ≠ some '0' ∨ (Nat.toDigits 10 n).length = 1 := by
    obtain rfl | hn := Nat.eq_zero_or_pos n
    · exact .inr rfl
    · exact .inl (head?_toDigits hn)
  cases integral with
  | true =>
    obtain rfl : k = 0 := hl rfl
    have hdigits := lexDigits_toDigits n fun c hc => (h c hc).1
    have hfraction := lexFraction_of_ne fun c hc => (h c hc).2.1
    simp [exponentText, lexNumber, hdigits, hguard, hfraction, lexExponent_of_ends h,
      digitsValue_toDigits, guard]
  | false =>
    have hdigits : lexDigits (Nat.toDigits 10 n ++ 'e' :: (k.repr.toList ++ rest)) =
        some (Nat.toDigits 10 n, 'e' :: (k.repr.toList ++ rest)) := lexDigits_toDigits n (by simp)
    have hfraction : lexFraction ('e' :: (k.repr.toList ++ rest)) =
        some ([], 'e' :: (k.repr.toList ++ rest)) :=
      lexFraction_of_ne (by simp)
    simp [exponentText, lexNumber, hdigits, hguard, hfraction, lexExponent_repr k h,
      digitsValue_toDigits, guard]

theorem toList_render (l : Numeral) :
    l.render.toList = (if l.negative then ['-'] else []) ++
      (Nat.toDigits 10 l.digits ++ exponentText l) := by
  rw [Numeral.render, exponentText]
  cases l.negative <;> cases l.integral <;> simp

theorem lexToken_digit {c : Char} (hc : c.isDigit = true) (cs : List Char) :
    lexToken c cs = (lexNumber false (c :: cs)).map fun (l, cs) => (.num l, cs) := by
  unfold lexToken
  split <;> try exact absurd hc (by decide)
  rfl

theorem isBlank_digit {c : Char} (hc : c.isDigit = true) : isBlank c = false := by
  by_contra hblank
  simp only [isBlank, Bool.not_eq_false, Bool.or_eq_true, decide_eq_true_eq] at hblank
  obtain ((rfl | rfl) | rfl) | rfl := hblank <;> exact absurd hc (by decide)

/-! Reading tokens one after another. -/

def Lexes (cs : List Char) (ts : List Token) : Prop :=
  ∀ fuel acc, cs.length ≤ fuel → lex fuel cs acc = some (acc.reverse ++ ts)

theorem Lexes.nil : Lexes [] [] := by
  intro fuel acc _
  cases fuel <;> simp [lex]

theorem Lexes.cons {c : Char} {cs rest : List Char} {t : Token} {ts : List Token}
    (hblank : isBlank c = false) (htoken : lexToken c cs = some (t, rest))
    (hlen : rest.length ≤ cs.length) (h : Lexes rest ts) :
    Lexes (c :: cs) (t :: ts) := by
  intro fuel acc hfuel
  cases fuel with
  | zero => simp at hfuel
  | succ fuel =>
    rw [List.length_cons] at hfuel
    have hrest := h fuel (t :: acc) (by omega)
    simp [lex, hblank, htoken, hrest]

/-- Reading `cs` takes the reader from one state to another. -/
def Scans (cs : List Char) (s s' : Expect × List Frame) : Prop :=
  ∃ ts, Lexes cs ts ∧ ts.foldlM advance s = some s'

theorem Scans.nil (s : Expect × List Frame) : Scans [] s s := ⟨[], Lexes.nil, rfl⟩

theorem Scans.cons {c : Char} {cs rest : List Char} {t : Token} {s s₁ s' : Expect × List Frame}
    (hblank : isBlank c = false) (htoken : lexToken c cs = some (t, rest))
    (hlen : rest.length ≤ cs.length) (hadvance : advance s t = some s₁) (h : Scans rest s₁ s') :
    Scans (c :: cs) s s' := by
  obtain ⟨ts, hlex, hfold⟩ := h
  refine ⟨t :: ts, hlex.cons hblank htoken hlen, ?_⟩
  rw [List.foldlM_cons, hadvance]
  exact hfold

theorem parse?_of_scans {s : String} {v : Json} (h : Scans s.toList (.value, []) (.done v, [])) :
    parse? s = some v := by
  obtain ⟨ts, hlex, hfold⟩ := h
  have htokens := hlex s.toList.length [] le_rfl
  simp only [List.reverse_nil, List.nil_append] at htokens
  rw [parse?]
  simp [htokens, hfold]

/-! Values. -/

theorem renderItems_eq (items : List Json) : renderItems items = items.map render := by
  induction items with
  | nil => rfl
  | cons v vs ih => rw [renderItems, ih, List.map_cons]

def fieldText (f : Text × Json) : String := renderText f.1 ++ ":" ++ f.2.render

theorem renderFields_eq (fields : List (Text × Json)) :
    renderFields fields = fields.map fieldText := by
  induction fields with
  | nil => rfl
  | cons f fs ih => rw [renderFields, ih, List.map_cons, fieldText]

/-- A value may come next. -/
def Opens (e : Expect) (s : List Frame) : Prop :=
  ∀ t s', openValue s t = some s' → advance (e, s) t = some s'

theorem opens_value (s : List Frame) : Opens .value s := fun _ _ h => h

theorem opens_firstItem (s : List Frame) : Opens .firstItem s := by
  intro t s' h
  cases t with
  | rbrack => simp [openValue] at h
  | _ => cases s <;> simpa [advance] using h

def quotedTail : Text → List Char
  | some s => s.toList.flatMap escapeChar ++ ['"']
  | none => ['\\', 'u', 'd', '8', '0', '0', '"']

theorem toList_renderText (t : Text) : (renderText t).toList = '"' :: quotedTail t := by
  cases t with
  | none => rfl
  | some s => simp [quotedTail, renderText, quoted]

theorem lexToken_text (t : Text) (rest : List Char) :
    lexToken '"' (quotedTail t ++ rest) = some (.str t, rest) := by
  cases t with
  | none =>
    simp only [quotedTail, List.cons_append, List.nil_append, lexToken, lexString_half,
      Option.map_some]
  | some s => simp [quotedTail, lexToken, lexString_quoted s rest]

theorem Scans.text {t : Text} {rest : List Char} {s s₁ s' : Expect × List Frame}
    (hadvance : advance s (.str t) = some s₁) (h : Scans rest s₁ s') :
    Scans ((renderText t).toList ++ rest) s s' := by
  rw [toList_renderText, List.cons_append]
  exact .cons rfl (lexToken_text t rest) (by simp) hadvance h

theorem Scans.numeral {l : Numeral} (hl : l.Proper) {rest : List Char} (hrest : Ends rest)
    {s s₁ s' : Expect × List Frame} (hadvance : advance s (.num l) = some s₁)
    (h : Scans rest s₁ s') :
    Scans (l.render.toList ++ rest) s s' := by
  have hlex := lexNumber_render hl hrest
  rw [toList_render]
  cases hneg : l.negative with
  | true =>
    rw [hneg] at hlex
    have htoken : lexToken '-' (Nat.toDigits 10 l.digits ++ exponentText l ++ rest) =
        some (.num l, rest) := by
      simp [lexToken, hlex]
    exact .cons rfl htoken (by simp; omega) hadvance h
  | false =>
    rw [hneg] at hlex
    have hall (c : Char) (hc : c ∈ Nat.toDigits 10 l.digits) : c.isDigit = true :=
      Nat.isDigit_of_mem_toDigits (by decide) (by decide) hc
    obtain ⟨c, ds, hds⟩ :=
      List.exists_cons_of_ne_nil (Nat.toDigits_ne_nil (n := l.digits) (b := 10))
    rw [hds] at hlex hall ⊢
    have hc := hall c List.mem_cons_self
    have htoken : lexToken c (ds ++ exponentText l ++ rest) = some (.num l, rest) := by
      rw [lexToken_digit hc, List.append_assoc, ← List.cons_append, hlex]
      rfl
    exact .cons (isBlank_digit hc) htoken (by simp; omega) hadvance h

/-- All integral literals of a value are without an exponent. -/
inductive Proper : Json → Prop where
  | null : Proper .null
  | bool (b : Bool) : Proper (.bool b)
  | num {l : Numeral} (h : l.Proper) : Proper (.num l)
  | str (t : Text) : Proper (.str t)
  | arr {items : List Json} (h : ∀ v ∈ items, Proper v) : Proper (.arr items)
  | obj {fields : List (Text × Json)} (h : ∀ f ∈ fields, Proper f.2) : Proper (.obj fields)

/-- The text of `v`, where a value may stand, is read as `v`. -/
def Legible (v : Json) : Prop :=
  ∀ e s rest s', Opens e s → Ends rest → Scans rest (place v s) s' →
    Scans (v.render.toList ++ rest) (e, s) s'

theorem ends_cons {c : Char} {cs : List Char}
    (h : c.isDigit = false ∧ c ≠ '.' ∧ c ≠ 'e' ∧ c ≠ 'E') :
    Ends (c :: cs) := by
  intro c' hc'
  cases hc'
  exact h

theorem Scans.items {items : List Json} (hitems : ∀ v ∈ items, Legible v) (hne : items ≠ [])
    {acc : List Json} {e : Expect} {s : List Frame} (hopen : Opens e (.arr acc :: s))
    {rest : List Char} {s' : Expect × List Frame}
    (h : Scans rest (place (.arr (acc.reverse ++ items)) s) s') :
    Scans ((",".intercalate (items.map render)).toList ++ ']' :: rest) (e, .arr acc :: s) s' := by
  induction items generalizing acc e with
  | nil => contradiction
  | cons v vs ih =>
    have hv := hitems v List.mem_cons_self
    cases vs with
    | nil =>
      rw [List.map_singleton, String.intercalate_singleton]
      refine hv _ _ _ _ hopen (ends_cons (by decide)) (.cons rfl rfl le_rfl rfl ?_)
      rwa [List.reverse_cons]
    | cons w ws =>
      have hrest : Scans rest
          (place (.arr ((v :: acc).reverse ++ w :: ws)) s) s' := by simpa using h
      have hnext :=
        ih (fun u hu => hitems u (List.mem_cons_of_mem _ hu)) (by simp) (opens_value _) hrest
      rw [List.map_cons, List.map_cons, String.intercalate_cons_cons, String.toList_append,
        String.toList_append, List.append_assoc, List.append_assoc]
      exact hv _ _ _ _ hopen (ends_cons (by decide)) (.cons rfl rfl le_rfl rfl hnext)

theorem Scans.field {f : Text × Json} (hf : Legible f.2) {acc : List (Text × Json)} {k : Text}
    {e : Expect} (he : e = .firstKey ∨ e = .key) {s : List Frame} {rest : List Char}
    (hrest : Ends rest) {s' : Expect × List Frame}
    (h : Scans rest (.afterField, .obj (f :: acc) f.1 :: s) s') :
    Scans ((fieldText f).toList ++ rest) (e, .obj acc k :: s) s' := by
  rw [fieldText, String.toList_append, String.toList_append, List.append_assoc, List.append_assoc]
  have hkey : advance (e, .obj acc k :: s) (.str f.1) = some (.colon, .obj acc f.1 :: s) := by
    obtain rfl | rfl := he <;> rfl
  refine .text hkey (.cons rfl rfl le_rfl rfl ?_)
  exact hf _ _ _ _ (opens_value _) hrest h

theorem Scans.fields {fields : List (Text × Json)} (hfields : ∀ f ∈ fields, Legible f.2)
    (hne : fields ≠ []) {acc : List (Text × Json)} {k : Text} {e : Expect}
    (he : e = .firstKey ∨ e = .key) {s : List Frame} {rest : List Char} {s' : Expect × List Frame}
    (h : Scans rest (place (.obj (acc.reverse ++ fields)) s) s') :
    Scans ((",".intercalate (fields.map fieldText)).toList ++ '\x7d' :: rest)
      (e, .obj acc k :: s) s' := by
  induction fields generalizing acc k e with
  | nil => contradiction
  | cons f fs ih =>
    have hf := hfields f List.mem_cons_self
    cases fs with
    | nil =>
      rw [List.map_singleton, String.intercalate_singleton]
      refine .field hf he (ends_cons (by decide)) (.cons rfl rfl le_rfl rfl ?_)
      rwa [List.reverse_cons]
    | cons g gs =>
      have hrest : Scans rest
          (place (.obj ((f :: acc).reverse ++ g :: gs)) s) s' := by simpa using h
      have hnext (k : Text) := ih (fun u hu => hfields u (List.mem_cons_of_mem _ hu)) (by simp)
        (k := k) (.inr rfl) hrest
      rw [List.map_cons, List.map_cons, String.intercalate_cons_cons, String.toList_append,
        String.toList_append, List.append_assoc, List.append_assoc]
      exact .field hf he (ends_cons (by decide)) (.cons rfl rfl le_rfl rfl (hnext f.1))

theorem legible_of_proper {v : Json} (hv : v.Proper) : Legible v := by
  induction hv with
  | null => exact fun e s rest s' hopen _ h => .cons rfl rfl (by simp; omega) (hopen _ _ rfl) h
  | bool b =>
    intro e s rest s' hopen _ h
    cases b with
    | true => exact .cons rfl rfl (by simp; omega) (hopen _ _ rfl) h
    | false => exact .cons rfl rfl (by simp; omega) (hopen _ _ rfl) h
  | num hl => exact fun e s rest s' hopen hrest h => .numeral hl hrest (hopen _ _ rfl) h
  | str t => exact fun e s rest s' hopen _ h => .text (hopen _ _ rfl) h
  | @arr items _ ih =>
    intro e s rest s' hopen _ h
    have htext : (render (.arr items)).toList ++ rest =
        '[' :: ((",".intercalate (items.map render)).toList ++ ']' :: rest) := by
      simp [render, renderItems_eq]
    rw [htext]
    refine .cons rfl rfl le_rfl (hopen _ _ rfl) ?_
    obtain rfl | hne := eq_or_ne items []
    · exact .cons rfl rfl le_rfl rfl h
    · exact .items ih hne (opens_firstItem _) h
  | @obj fields _ ih =>
    intro e s rest s' hopen _ h
    have htext : (render (.obj fields)).toList ++ rest =
        '\x7b' :: ((",".intercalate (fields.map fieldText)).toList ++ '\x7d' :: rest) := by
      simp [render, renderFields_eq]
    rw [htext]
    refine .cons rfl rfl le_rfl (hopen _ _ rfl) ?_
    obtain rfl | hne := eq_or_ne fields []
    · exact .cons rfl rfl le_rfl rfl h
    · exact .fields ih hne (.inl rfl) h

/-- The text of a value reads back as that value. -/
theorem parse?_render {v : Json} (hv : v.Proper) : parse? v.render = some v := by
  have hscan :=
    legible_of_proper hv .value [] [] (.done v, []) (opens_value _) (fun _ hc => by simp at hc)
    (Scans.nil _)
  rw [List.append_nil] at hscan
  exact parse?_of_scans hscan

/-! What is read has no other literals. -/

theorem proper_of_lexNumber {negative : Bool} {cs rest : List Char} {l : Numeral}
    (h : lexNumber negative cs = some (l, rest)) : l.Proper := by
  simp only [lexNumber, Option.bind_eq_bind, Option.bind_eq_some_iff, Option.pure_def,
    Option.some.injEq, Prod.mk.injEq] at h
  obtain ⟨⟨whole, cs₁⟩, -, -, -, ⟨frac, cs₂⟩, -, ⟨exp, cs₃⟩, -, rfl, -⟩ := h
  intro hintegral
  simp at hintegral ⊢
  simp [hintegral]

def Token.Proper : Token → Prop
  | .num l => l.Proper
  | _ => True

theorem proper_of_lexToken {c : Char} {cs rest : List Char} {t : Token}
    (h : lexToken c cs = some (t, rest)) :
    t.Proper := by
  unfold lexToken at h
  split at h
  case h_10 =>
    obtain ⟨⟨u, rest'⟩, -, hp⟩ := Option.map_eq_some_iff.mp h
    cases hp
    trivial
  case h_11 | h_12 =>
    obtain ⟨⟨l, rest'⟩, hl, hp⟩ := Option.map_eq_some_iff.mp h
    cases hp
    exact proper_of_lexNumber hl
  all_goals
    cases h
    trivial

theorem proper_of_lex {fuel : Nat} {cs : List Char} {acc ts : List Token}
    (h : lex fuel cs acc = some ts) (hacc : ∀ t ∈ acc, t.Proper) : ∀ t ∈ ts, t.Proper := by
  fun_induction lex fuel cs acc with
  | case1 =>
    cases h
    simpa using hacc
  | case2 => contradiction
  | case3 fuel acc c cs hblank ih => exact ih h hacc
  | case4 fuel acc c cs hblank ih =>
    obtain ⟨⟨t, rest⟩, htoken, hlex⟩ := Option.bind_eq_some_iff.mp h
    refine ih t rest hlex fun u hu => ?_
    obtain rfl | hu := List.mem_cons.mp hu
    · exact proper_of_lexToken htoken
    · exact hacc u hu

def Frame.Proper : Frame → Prop
  | .arr items => ∀ v ∈ items, v.Proper
  | .obj fields _ => ∀ f ∈ fields, f.2.Proper

def Expect.Proper : Expect → Prop
  | .done v => v.Proper
  | _ => True

theorem proper_place {v : Json} (hv : v.Proper) {s : List Frame} (hs : ∀ f ∈ s, f.Proper) :
    (place v s).1.Proper ∧ ∀ f ∈ (place v s).2, f.Proper := by
  cases s with
  | nil => exact ⟨hv, hs⟩
  | cons f s =>
    have hf := hs f List.mem_cons_self
    have hs' : ∀ g ∈ s, g.Proper := fun g hg => hs g (List.mem_cons_of_mem _ hg)
    cases f with
    | arr items =>
      exact ⟨trivial, List.forall_mem_cons.mpr ⟨List.forall_mem_cons.mpr ⟨hv, hf⟩, hs'⟩⟩
    | obj fields k =>
      exact ⟨trivial, List.forall_mem_cons.mpr ⟨List.forall_mem_cons.mpr ⟨hv, hf⟩, hs'⟩⟩

theorem proper_openValue {s : List Frame} {t : Token} {st : Expect × List Frame}
    (h : openValue s t = some st) (ht : t.Proper) (hs : ∀ f ∈ s, f.Proper) :
    st.1.Proper ∧ ∀ f ∈ st.2, f.Proper := by
  cases t with
  | null => cases h; exact proper_place .null hs
  | bool b => cases h; exact proper_place (.bool b) hs
  | num l => cases h; exact proper_place (.num ht) hs
  | str u => cases h; exact proper_place (.str u) hs
  | lbrack => cases h; exact ⟨trivial, List.forall_mem_cons.mpr ⟨by simp [Frame.Proper], hs⟩⟩
  | lbrace => cases h; exact ⟨trivial, List.forall_mem_cons.mpr ⟨by simp [Frame.Proper], hs⟩⟩
  | _ => cases h

theorem proper_closeArr {items : List Json} {s : List Frame}
    (hs : ∀ f ∈ Frame.arr items :: s, f.Proper) :
    (place (.arr items.reverse) s).1.Proper ∧ ∀ f ∈ (place (.arr items.reverse) s).2, f.Proper :=
  proper_place (.arr fun v hv => hs _ List.mem_cons_self v (List.mem_reverse.mp hv))
    fun f hf => hs f (List.mem_cons_of_mem _ hf)

theorem proper_closeObj {fields : List (Text × Json)} {k : Text} {s : List Frame}
    (hs : ∀ f ∈ Frame.obj fields k :: s, f.Proper) :
    (place (.obj fields.reverse) s).1.Proper ∧ ∀ f ∈ (place (.obj fields.reverse) s).2, f.Proper :=
  proper_place (.obj fun f hf => hs _ List.mem_cons_self f (List.mem_reverse.mp hf))
    fun f hf => hs f (List.mem_cons_of_mem _ hf)

theorem proper_advance {st st' : Expect × List Frame} {t : Token} (h : advance st t = some st')
    (ht : t.Proper) (hs : ∀ f ∈ st.2, f.Proper) : st'.1.Proper ∧ ∀ f ∈ st'.2, f.Proper := by
  unfold advance at h
  split at h
  case h_1 | h_3 => exact proper_openValue h ht hs
  case h_2 | h_5 =>
    cases h
    exact proper_closeArr hs
  case h_6 | h_11 =>
    cases h
    exact proper_closeObj hs
  case h_7 | h_8 =>
    -- The open object's fields stay as they are.
    cases h
    obtain ⟨hfields, hs⟩ := List.forall_mem_cons.mp hs
    exact ⟨trivial, List.forall_mem_cons.mpr ⟨hfields, hs⟩⟩
  case h_4 | h_9 | h_10 =>
    cases h
    exact ⟨trivial, hs⟩
  case h_12 => cases h

theorem proper_foldlM {ts : List Token} {st st' : Expect × List Frame}
    (h : ts.foldlM advance st = some st') (hts : ∀ t ∈ ts, t.Proper)
    (hst : st.1.Proper ∧ ∀ f ∈ st.2, f.Proper) :
    st'.1.Proper ∧ ∀ f ∈ st'.2, f.Proper := by
  induction ts generalizing st with
  | nil =>
    cases h
    exact hst
  | cons t ts ih =>
    rw [List.foldlM_cons] at h
    obtain ⟨st₁, hstep, hrest⟩ := Option.bind_eq_some_iff.mp h
    exact ih hrest (fun u hu => hts u (List.mem_cons_of_mem _ hu))
      (proper_advance hstep (hts t List.mem_cons_self) hst.2)

theorem proper_of_parse? {s : String} {v : Json} (h : parse? s = some v) : v.Proper := by
  simp only [parse?, Option.bind_eq_bind, Option.bind_eq_some_iff] at h
  obtain ⟨ts, hlex, ⟨e, frames⟩, hfold, hdone⟩ := h
  have hts := proper_of_lex hlex (by simp)
  have hproper := proper_foldlM hfold hts ⟨trivial, by simp⟩
  split at hdone
  case h_1 heq =>
    cases hdone
    cases heq
    exact hproper.1
  case h_2 => cases hdone

end Json

end ComplementarityQP
