import Caminus.Common.Serde
import Mathlib.Data.List.OfFn

/-!
# Compact JSON text

The compact text of a value: no blanks, members in key order, strings escaped as `serde_json` escapes
them. Reading from the left, the text of a value ends before any character that cannot continue a
number, so a text determines its value (`text_injective`) and the interface of `SerdeJson` is
realised by `SerdeJson.compact`. Floats are written by their fields instead of their shortest decimal
form.
-/

namespace Caminus

namespace Json

/-! ## Writing -/

/-- The escape of one character of a string, as `serde_json` chooses it: a short one where JSON has
it, a hexadecimal one for the other control characters. -/
def escapeChar (c : Char) : List Char :=
  if c = '"' then ['\\', '"']
  else if c = '\\' then ['\\', '\\']
  else if c = '\n' then ['\\', 'n']
  else if c = '\r' then ['\\', 'r']
  else if c = '\t' then ['\\', 't']
  else if c.toNat = 8 then ['\\', 'b']
  else if c.toNat = 12 then ['\\', 'f']
  else if c.toNat < 32 then
    ['\\', 'u', '0', '0', Nat.digitChar (c.toNat / 16), Nat.digitChar (c.toNat % 16)]
  else [c]

/-- A quoted string: each character escaped on its own, between quotation marks. -/
def quoted (s : String) : List Char := '"' :: s.toList.flatMap escapeChar ++ ['"']

/-- The decimal digits of a number. -/
def digits (n : ℕ) : List Char := Nat.toDigits 10 n

/-- The text of a number. Floats are written by their parts, as only injectivity matters here. -/
def numberText : Number → List Char
  | .posInt n => digits n.toNat
  | .negInt n => '-' :: digits (n.val + 1)
  | .float x =>
      (if x.negative then ['-'] else []) ++ digits x.fraction.val ++ '.' :: digits x.exponent.val

/-- Elements separated by commas, with none before the first or after the last. -/
def commaSep : List (List Char) → List Char
  | [] => []
  | x :: xs => x ++ xs.flatMap (',' :: ·)

/-- The characters of a compact text, with no blanks. Recursion is over the value. -/
def chars : Json → List Char
  | null => ['n', 'u', 'l', 'l']
  | bool true => ['t', 'r', 'u', 'e']
  | bool false => ['f', 'a', 'l', 's', 'e']
  | number n => numberText n
  | string s => quoted s
  | array _ elems => '[' :: commaSep (List.ofFn fun i => (elems i).chars) ++ [']']
  | object keys vals =>
      '\x7b' :: commaSep (List.ofFn fun i => quoted (keys.names.get i) ++ ':' :: (vals i).chars)
        ++ ['\x7d']

/-- The compact text of a value. -/
def text (v : Json) : String := String.ofList v.chars

/-! ## Codes that can be read from the left -/

/-- The head of the text, if any, is rejected by `p`: where a token that consists of such characters
ends. -/
def Stops (p : Char → Bool) (r : List Char) : Prop := ∀ c ∈ r.head?, p c = false

/-- A text whose first character is rejected stops at once. -/
theorem stops_cons {p : Char → Bool} {c : Char} (hc : p c = false) (r : List Char) :
    Stops p (c :: r) := by
  simpa [Stops] using hc

/-- `f a` is recognised at the head of any text that goes on with a character outside `p`. -/
def Decodes {α : Type} (p : Char → Bool) (f : α → List Char) (a : α) : Prop :=
  ∀ b r s, Stops p r → Stops p s → f a ++ r = f b ++ s → a = b ∧ r = s

/-- A sequence of codes is recognised up to a stop character that begins none of them. -/
theorem flatMap_decodes {α : Type} {p : Char → Bool} {f : α → List Char} {stop : Char}
    (hstop : p stop = false) (hhead : ∀ a, ∃ c cs, f a = c :: cs ∧ c ≠ stop ∧ p c = false)
    {l : List α} (hl : ∀ a ∈ l, Decodes p f a) (m : List α) (r s : List Char)
    (h : l.flatMap f ++ stop :: r = m.flatMap f ++ stop :: s) : l = m ∧ r = s := by
  -- what follows a code is the next one or the stop character, and both end it
  have hstops : ∀ (m : List α) r, Stops p (m.flatMap f ++ stop :: r) := by
    intro m r
    cases m with
    | nil => exact stops_cons hstop r
    | cons b m =>
      obtain ⟨c, cs, hc, -, hp⟩ := hhead b
      simpa [hc] using stops_cons hp _
  induction l generalizing m with
  | nil =>
    cases m with
    | nil => simpa using h
    | cons b m =>
      obtain ⟨c, cs, hc, hne, -⟩ := hhead b
      simp only [List.flatMap_nil, List.nil_append, List.flatMap_cons, hc, List.cons_append,
        List.cons.injEq] at h
      exact absurd h.1.symm hne
  | cons a l ih =>
    cases m with
    | nil =>
      obtain ⟨c, cs, hc, hne, -⟩ := hhead a
      simp only [List.flatMap_nil, List.nil_append, List.flatMap_cons, hc, List.cons_append,
        List.cons.injEq] at h
      exact absurd h.1 hne
    | cons b m =>
      simp only [List.flatMap_cons, List.append_assoc] at h
      obtain ⟨rfl, hrest⟩ := hl a List.mem_cons_self b _ _ (hstops l r) (hstops m s) h
      obtain ⟨rfl, rfl⟩ := ih (fun x hx => hl x (List.mem_cons_of_mem _ hx)) m hrest
      exact ⟨rfl, rfl⟩

/-- The same for elements separated by commas: after the first one, each is a code that begins with
a comma. -/
theorem commaSep_decodes {α : Type} {p : Char → Bool} {f : α → List Char} {stop : Char}
    (hstop : p stop = false) (hcomma : p ',' = false) (hne : stop ≠ ',')
    (hhead : ∀ a, ∃ c cs, f a = c :: cs ∧ c ≠ stop)
    {l : List α} (hl : ∀ a ∈ l, Decodes p f a) (m : List α) (r s : List Char)
    (h : commaSep (l.map f) ++ stop :: r = commaSep (m.map f) ++ stop :: s) : l = m ∧ r = s := by
  have hstops : ∀ (m : List α) r, Stops p ((m.map f).flatMap (',' :: ·) ++ stop :: r) := by
    intro m r
    cases m with
    | nil => exact stops_cons hstop r
    | cons b m => exact stops_cons hcomma _
  cases l with
  | nil =>
    cases m with
    | nil => simpa [commaSep] using h
    | cons b m =>
      obtain ⟨c, cs, hc, hcs⟩ := hhead b
      simp only [List.map_nil, List.map_cons, commaSep, List.nil_append, hc, List.cons_append,
        List.cons.injEq] at h
      exact absurd h.1.symm hcs
  | cons a l =>
    cases m with
    | nil =>
      obtain ⟨c, cs, hc, hcs⟩ := hhead a
      simp only [List.map_nil, List.map_cons, commaSep, List.nil_append, hc, List.cons_append,
        List.cons.injEq] at h
      exact absurd h.1 hcs
    | cons b m =>
      simp only [List.map_cons, commaSep, List.append_assoc] at h
      obtain ⟨rfl, hrest⟩ := hl a List.mem_cons_self b _ _ (hstops l r) (hstops m s) h
      rw [List.flatMap_map, List.flatMap_map] at hrest
      obtain ⟨rfl, rfl⟩ := flatMap_decodes hstop (fun x => ⟨',', f x, rfl, hne.symm, hcomma⟩)
        (fun x hx y r' s' hr hs hxy => hl x (List.mem_cons_of_mem _ hx) y r' s' hr hs
          (List.cons.inj hxy).2) m r s hrest
      exact ⟨rfl, rfl⟩

/-! ## Strings and numbers -/

/-- The value of a hexadecimal digit. -/
def hexValue (c : Char) : ℕ := if c.isDigit then c.toNat - 48 else c.toNat - 87

/-- The digit of a value has that value. -/
theorem hexValue_digitChar : ∀ d < 16, hexValue (Nat.digitChar d) = d := by decide

/-- Reads one possibly escaped character, with what comes after it. This inverts `escapeChar`. -/
def unescape : List Char → Option (Char × List Char)
  | [] => none
  | '\\' :: 'n' :: r => some ('\n', r)
  | '\\' :: 'r' :: r => some ('\r', r)
  | '\\' :: 't' :: r => some ('\t', r)
  | '\\' :: 'b' :: r => some (Char.ofNat 8, r)
  | '\\' :: 'f' :: r => some (Char.ofNat 12, r)
  | '\\' :: 'u' :: _ :: _ :: x :: y :: r =>
      some (Char.ofNat (16 * hexValue x + hexValue y), r)
  | '\\' :: c :: r => some (c, r)
  | c :: r => some (c, r)

/-- Reading an escaped character gives the character, and the rest of the text. -/
theorem unescape_escapeChar (c : Char) (r : List Char) :
    unescape (escapeChar c ++ r) = some (c, r) := by
  unfold escapeChar
  split_ifs with hquote hback hn hr ht hb hf hctl
  · subst hquote; rfl
  · subst hback; rfl
  · subst hn; rfl
  · subst hr; rfl
  · subst ht; rfl
  · have hc : Char.ofNat 8 = c := by rw [← hb, Char.ofNat_toNat]
    rw [← hc]
    rfl
  · have hc : Char.ofNat 12 = c := by rw [← hf, Char.ofNat_toNat]
    rw [← hc]
    rfl
  · have hvalue : 16 * (c.toNat / 16) + c.toNat % 16 = c.toNat := Nat.div_add_mod _ _
    -- a control character is written with two hexadecimal digits
    simp [unescape, hexValue_digitChar (c.toNat / 16) (by omega),
      hexValue_digitChar (c.toNat % 16) (by omega), hvalue]
  · rw [List.cons_append, List.nil_append, unescape.eq_def]
    split <;> simp_all

/-- An escape is recognised whatever follows it, so a string can be read character by character. -/
theorem escapeChar_decodes (c : Char) : Decodes (fun _ => false) escapeChar c := by
  intro d r s _ _ h
  have hread := unescape_escapeChar c r
  rw [h, unescape_escapeChar] at hread
  simpa [eq_comm] using hread

/-- No escape begins with the quote that closes the string. -/
theorem escapeChar_head (c : Char) : ∃ d ds, escapeChar c = d :: ds ∧ d ≠ '"' ∧ false = false := by
  unfold escapeChar
  split_ifs with hquote
  all_goals first
    | exact ⟨_, _, rfl, by decide, rfl⟩
    | exact ⟨_, _, rfl, hquote, rfl⟩

/-- A quoted string ends at its closing quote, and determines the string. -/
theorem quoted_inj {s t : String} {r r' : List Char} (h : quoted s ++ r = quoted t ++ r') :
    s = t ∧ r = r' := by
  simp only [quoted, List.cons_append, List.append_assoc, List.nil_append, List.cons.injEq,
    true_and] at h
  obtain ⟨hst, hr⟩ := flatMap_decodes rfl escapeChar_head (fun c _ => escapeChar_decodes c) _ _ _ h
  exact ⟨String.toList_inj.mp hst, hr⟩

/-- A prefix that satisfies `p` and is followed by a stop is recovered by `takeWhile`. -/
theorem takeWhile_of_stops {p : Char → Bool} {l r : List Char} (hl : ∀ c ∈ l, p c = true)
    (hr : Stops p r) : (l ++ r).takeWhile p = l := by
  rw [List.takeWhile_append_of_pos hl]
  cases r with
  | nil => simp
  | cons c r => simp [show p c = false from hr c rfl]

/-- A code all of whose characters satisfy `p` is recognised as far as it is injective. -/
theorem decodes_of_forall {α : Type} {p : Char → Bool} {f : α → List Char}
    (hp : ∀ a, ∀ c ∈ f a, p c = true) (hf : Function.Injective f) (a : α) : Decodes p f a := by
  intro b r s hr hs h
  have hab : f a = f b := by
    rw [← takeWhile_of_stops (hp a) hr, h, takeWhile_of_stops (hp b) hs]
  rw [hab] at h
  exact ⟨hf hab, List.append_cancel_left h⟩

/-- The digits of a number are digits. -/
theorem digits_isDigit (n : ℕ) : ∀ c ∈ digits n, c.isDigit = true := fun _ hc =>
  Nat.isDigit_of_mem_toDigits (by decide) (by decide) hc

/-- The digits determine the number, which tells integers apart by their text. -/
theorem digits_injective : Function.Injective digits := by
  intro m n h
  have hvalue := congrArg (fun ds => Nat.ofDigitChars 10 ds 0) h
  simpa [digits, Nat.ofDigitChars_toDigits] using hvalue

/-- There is at least one digit. -/
theorem digits_head (n : ℕ) : ∃ c cs, digits n = c :: cs ∧ c.isDigit = true := by
  cases h : digits n with
  | nil => exact absurd h Nat.toDigits_ne_nil
  | cons c cs => exact ⟨c, cs, rfl, digits_isDigit n c (by rw [h]; exact List.mem_cons_self)⟩

/-- The characters of numbers. None of them can follow a number in a text, so it is clear where one
ends. -/
def isNumeric (c : Char) : Bool := c.isDigit || c == '-' || c == '.'

/-- The text of a number consists of the characters of numbers. -/
theorem numberText_isNumeric (n : Number) : ∀ c ∈ numberText n, isNumeric c = true := by
  have hdigit : ∀ m, ∀ c ∈ digits m, isNumeric c = true := by
    intro m c hc
    simp [isNumeric, digits_isDigit m c hc]
  intro c hc
  cases n with
  | posInt n => exact hdigit _ c hc
  | negInt n =>
    rcases List.mem_cons.mp hc with rfl | hc
    · rfl
    · exact hdigit _ c hc
  | float x =>
    simp only [numberText, List.mem_append, List.mem_cons] at hc
    rcases hc with (hc | hc) | rfl | hc
    · split_ifs at hc
      · obtain rfl := List.mem_singleton.mp hc
        rfl
      · cases hc
    · exact hdigit _ c hc
    · rfl
    · exact hdigit _ c hc

/-- An integer has no decimal point. -/
theorem dot_notMem_digits (n : ℕ) : '.' ∉ digits n := fun h =>
  absurd (digits_isDigit n _ h) (by decide)

/-- A float has a decimal point, which tells it from an integer. -/
theorem dot_mem_float (x : F64) : '.' ∈ numberText (.float x) := by simp [numberText]

/-- The unsigned part of a float determines fraction and exponent. -/
theorem floatDigits_inj {m n m' n' : ℕ} (h : digits m ++ '.' :: digits n = digits m' ++ '.' :: digits n') :
    m = m' ∧ n = n' := by
  obtain ⟨hm, hn⟩ := decodes_of_forall digits_isDigit digits_injective m m' _ _
    (stops_cons (by decide) _) (stops_cons (by decide) _) h
  exact ⟨hm, digits_injective (List.cons.inj hn).2⟩

/-- Digits do not begin with a minus sign. -/
theorem digits_append_ne_minus (n : ℕ) (r s : List Char) : digits n ++ r ≠ '-' :: s := by
  obtain ⟨c, cs, hc, hd⟩ := digits_head n
  intro h
  rw [hc, List.cons_append, List.cons.injEq] at h
  rw [h.1] at hd
  exact absurd hd (by decide)

/-- The text of a number determines the number: the sign and the point tell the three kinds apart. -/
theorem numberText_injective : Function.Injective numberText := by
  intro a b h
  cases a with
  | posInt m =>
    cases b with
    | posInt n => rw [UInt64.toNat_inj.mp (digits_injective h)]
    | negInt n => exact absurd h (by simpa [numberText] using digits_append_ne_minus m.toNat [] _)
    | float y => exact absurd (h ▸ dot_mem_float y) (dot_notMem_digits _)
  | negInt m =>
    cases b with
    | posInt n =>
      exact absurd h.symm (by simpa [numberText] using digits_append_ne_minus n.toNat [] _)
    | negInt n =>
      have hval := digits_injective (List.cons.inj h).2
      rw [Fin.ext (Nat.succ.inj hval)]
    | float y =>
      have hdot := h ▸ dot_mem_float y
      rcases List.mem_cons.mp hdot with hc | hc
      · exact absurd hc (by decide)
      · exact absurd hc (dot_notMem_digits _)
  | float x =>
    cases b with
    | posInt n => exact absurd (h ▸ dot_mem_float x) (dot_notMem_digits _)
    | negInt n =>
      have hdot := h ▸ dot_mem_float x
      rcases List.mem_cons.mp hdot with hc | hc
      · exact absurd hc (by decide)
      · exact absurd hc (dot_notMem_digits _)
    | float y =>
      obtain ⟨xn, xe, xf⟩ := x
      obtain ⟨yn, ye, yf⟩ := y
      simp only [numberText, List.append_assoc] at h
      -- the signs agree, since no digit is a minus sign
      cases xn <;> cases yn <;> simp only [Bool.false_eq_true, if_false, if_true, List.nil_append,
        List.cons_append] at h
      · obtain ⟨hf, he⟩ := floatDigits_inj h
        rw [Fin.ext hf, Fin.ext he]
      · exact absurd h (digits_append_ne_minus _ _ _)
      · exact absurd h.symm (digits_append_ne_minus _ _ _)
      · obtain ⟨hf, he⟩ := floatDigits_inj (List.cons.inj h).2
        rw [Fin.ext hf, Fin.ext he]

/-! ## Values -/

/-- The kind of a value, numbered: two values of different kinds differ in the first character of
their texts. -/
def kind : Json → ℕ
  | null => 0
  | bool true => 1
  | bool false => 2
  | number _ => 3
  | string _ => 4
  | array _ _ => 5
  | object _ _ => 6

/-- The kind of value whose text begins with a character; closing brackets begin none. -/
def kindOfHead (c : Char) : ℕ :=
  if c = 'n' then 0 else if c = 't' then 1 else if c = 'f' then 2
  else if isNumeric c then 3 else if c = '"' then 4 else if c = '[' then 5
  else if c = '\x7b' then 6 else 7

/-- The first character of a text tells the kind of the value. -/
theorem chars_head (v : Json) : ∃ c cs, v.chars = c :: cs ∧ kindOfHead c = v.kind := by
  cases v with
  | null => exact ⟨_, _, rfl, rfl⟩
  | bool b => cases b <;> exact ⟨_, _, rfl, rfl⟩
  | string s => exact ⟨_, _, rfl, rfl⟩
  | array n elems => exact ⟨_, _, rfl, rfl⟩
  | object keys vals => exact ⟨_, _, rfl, rfl⟩
  | number n =>
    have hne : numberText n ≠ [] := by
      cases n with
      | posInt n => exact Nat.toDigits_ne_nil
      | negInt n => simp [numberText]
      | float x => simp [numberText]
    obtain ⟨c, cs, hc⟩ := List.exists_cons_of_ne_nil hne
    have hnum := numberText_isNumeric n c (by rw [hc]; exact List.mem_cons_self)
    refine ⟨c, cs, hc, ?_⟩
    have hn : c ≠ 'n' := by rintro rfl; exact absurd hnum (by decide)
    have ht : c ≠ 't' := by rintro rfl; exact absurd hnum (by decide)
    have hf : c ≠ 'f' := by rintro rfl; exact absurd hnum (by decide)
    simp [kindOfHead, kind, hn, ht, hf, hnum]

/-- Texts with a common extension are of values of the same kind. -/
theorem kind_eq_of_chars_append {v w : Json} {r s : List Char}
    (h : v.chars ++ r = w.chars ++ s) : v.kind = w.kind := by
  obtain ⟨c, cs, hv, hkv⟩ := chars_head v
  obtain ⟨d, ds, hw, hkw⟩ := chars_head w
  rw [hv, hw, List.cons_append, List.cons_append, List.cons.injEq] at h
  rw [← hkv, ← hkw, h.1]

/-- Two values of one kind, for a case analysis that leaves out the pairs whose texts differ at
once. -/
inductive SameKind : Json → Json → Prop
  | null : SameKind null null
  | bool (b : Bool) : SameKind (bool b) (bool b)
  | number (m n : Number) : SameKind (number m) (number n)
  | string (s t : String) : SameKind (string s) (string t)
  | array {m n : ℕ} (xs : Fin m → Json) (ys : Fin n → Json) : SameKind (array m xs) (array n ys)
  | object {keys keys' : Keys} (vs : Fin keys.names.length → Json)
      (ws : Fin keys'.names.length → Json) : SameKind (object keys vs) (object keys' ws)

/-- The kind as a case distinction on both values. -/
theorem sameKind_of_kind_eq {v w : Json} (h : v.kind = w.kind) : SameKind v w := by
  rcases v with _ | (_ | _) | _ | _ | _ | _ <;> rcases w with _ | (_ | _) | _ | _ | _ | _
  all_goals first
    | constructor
    | cases h

/-- The number of closing brackets is that of no kind. -/
theorem kind_ne_seven (v : Json) : v.kind ≠ 7 := by
  cases v with
  | bool b => cases b <;> decide
  | _ => simp [kind]

/-- A text never begins with a closing bracket, so an empty list is told from one with elements. -/
theorem chars_head_ne {stop : Char} (hstop : kindOfHead stop = 7) (v : Json) :
    ∃ c cs, v.chars = c :: cs ∧ c ≠ stop := by
  obtain ⟨c, cs, hc, hk⟩ := chars_head v
  refine ⟨c, cs, hc, ?_⟩
  rintro rfl
  exact kind_ne_seven v (hk.symm.trans hstop)

/-- One member of an object. -/
def memberChars (p : String × Json) : List Char := quoted p.1 ++ ':' :: p.2.chars

/-- Arrays with the same text have the same elements, if the texts of the elements decode. -/
theorem array_decodes {n n' : ℕ} {elems : Fin n → Json} {elems' : Fin n' → Json} {r s : List Char}
    (ih : ∀ i, Decodes isNumeric chars (elems i))
    (h : (array n elems).chars ++ r = (array n' elems').chars ++ s) :
    array n elems = array n' elems' ∧ r = s := by
  simp only [chars, List.cons_append, List.append_assoc, List.nil_append, List.cons.injEq,
    true_and] at h
  have hmap : ∀ (k : ℕ) (xs : Fin k → Json),
      (List.ofFn fun i => (xs i).chars) = (List.ofFn xs).map chars := by
    intro k xs
    rw [List.map_ofFn]
    rfl
  rw [hmap, hmap] at h
  have helems : ∀ x ∈ List.ofFn elems, Decodes isNumeric chars x := by
    intro x hx
    obtain ⟨i, rfl⟩ := List.mem_ofFn.mp hx
    exact ih i
  obtain ⟨hlist, hrs⟩ := commaSep_decodes (p := isNumeric) (by decide) (by decide) (by decide)
    (chars_head_ne (by decide)) helems _ _ _ h
  -- equal lists of elements give equal lengths first
  have hn : n = n' := by simpa using congrArg List.length hlist
  subst hn
  exact ⟨congrArg _ (List.ofFn_injective hlist), hrs⟩

/-- A member decodes if the text of its value does, since its name is quoted and a colon follows. -/
theorem memberChars_decodes {p : String × Json} (hp : Decodes isNumeric chars p.2) :
    Decodes isNumeric memberChars p := by
  intro q r s hr hs h
  simp only [memberChars, List.append_assoc, List.cons_append] at h
  obtain ⟨hname, hrest⟩ := quoted_inj h
  obtain ⟨hval, hrs⟩ := hp q.2 r s hr hs (List.cons.inj hrest).2
  exact ⟨Prod.ext hname hval, hrs⟩

/-- Objects with the same text have the same members, if the texts of the values decode. -/
theorem object_decodes {keys keys' : Keys} {vals : Fin keys.names.length → Json}
    {vals' : Fin keys'.names.length → Json} {r s : List Char}
    (ih : ∀ i, Decodes isNumeric chars (vals i))
    (h : (object keys vals).chars ++ r = (object keys' vals').chars ++ s) :
    object keys vals = object keys' vals' ∧ r = s := by
  simp only [chars, List.cons_append, List.append_assoc, List.nil_append, List.cons.injEq,
    true_and] at h
  have hmap : ∀ (ks : Keys) (xs : Fin ks.names.length → Json),
      (List.ofFn fun i => quoted (ks.names.get i) ++ ':' :: (xs i).chars) =
        (List.ofFn fun i => (ks.names.get i, xs i)).map memberChars := by
    intro ks xs
    rw [List.map_ofFn]
    rfl
  rw [hmap, hmap] at h
  have hmembers : ∀ x ∈ List.ofFn fun i => (keys.names.get i, vals i),
      Decodes isNumeric memberChars x := by
    intro x hx
    obtain ⟨i, rfl⟩ := List.mem_ofFn.mp hx
    exact memberChars_decodes (ih i)
  obtain ⟨hlist, hrs⟩ := commaSep_decodes (p := isNumeric) (by decide) (by decide) (by decide)
    (fun p => ⟨'"', _, rfl, by decide⟩) hmembers _ _ _ h
  have hnames : keys.names = keys'.names := by
    simpa [List.map_ofFn, Function.comp_def] using congrArg (List.map Prod.fst) hlist
  -- the names fix the keys, and only then can the values be compared
  obtain rfl : keys = keys' := by
    cases keys
    cases keys'
    simp_all
  have hvals := List.ofFn_injective hlist
  refine ⟨congrArg _ (funext fun i => ?_), hrs⟩
  exact congrArg Prod.snd (congrFun hvals i)

/-- Every text decodes, as long as what follows does not continue a number. By induction on the
value, with the kind of the other value read off its first character. -/
theorem chars_decodes (v : Json) : Decodes isNumeric chars v := by
  induction v with
  | null =>
    intro w r s _ _ h
    cases sameKind_of_kind_eq (kind_eq_of_chars_append h)
    exact ⟨rfl, List.append_cancel_left h⟩
  | bool b =>
    intro w r s _ _ h
    cases sameKind_of_kind_eq (kind_eq_of_chars_append h)
    exact ⟨rfl, List.append_cancel_left h⟩
  | number n =>
    intro w r s hr hs h
    cases sameKind_of_kind_eq (kind_eq_of_chars_append h) with
    | number _ n' =>
      obtain ⟨hn, hrs⟩ :=
        decodes_of_forall numberText_isNumeric numberText_injective n n' r s hr hs h
      exact ⟨congrArg _ hn, hrs⟩
  | string t =>
    intro w r s _ _ h
    cases sameKind_of_kind_eq (kind_eq_of_chars_append h) with
    | string _ t' =>
      obtain ⟨ht, hrs⟩ := quoted_inj h
      exact ⟨congrArg _ ht, hrs⟩
  | array n elems ih =>
    intro w r s _ _ h
    cases sameKind_of_kind_eq (kind_eq_of_chars_append h) with
    | array _ elems' => exact array_decodes ih h
  | object keys vals ih =>
    intro w r s _ _ h
    cases sameKind_of_kind_eq (kind_eq_of_chars_append h) with
    | object _ vals' => exact object_decodes ih h

/-- **A text determines its value**, which is all that the engine relies on when it uses texts as
keys. -/
theorem text_injective : Function.Injective text := by
  intro v w h
  have hchars : v.chars ++ [] = w.chars ++ [] := by
    simpa [text] using congrArg String.toList h
  exact (chars_decodes v w [] [] (by simp [Stops]) (by simp [Stops]) hchars).1

end Json

open Classical in
/-- The text format as an implementation of the interface: bytes are read by looking for the value they
were written from, among those that are not nested too deep. -/
noncomputable def SerdeJson.compact : SerdeJson where
  toText := Json.text
  debug := Json.text
  toVec v := v.text.toByteArray
  fromSlice b :=
    if h : ∃ v : Json, v.nestedAtMost 127 = true ∧ v.text.toByteArray = b then .ok h.choose
    else .error "recursion limit exceeded"
  toText_injective := Json.text_injective
  fromSlice_toVec := by
    intro v hplain
    have h : ∃ w : Json, w.nestedAtMost 127 = true ∧ w.text.toByteArray = v.text.toByteArray :=
      ⟨v, hplain.1, rfl⟩
    rw [dif_pos h]
    exact congrArg Except.ok (Json.text_injective (String.toByteArray_inj.mp h.choose_spec.2))
  alike_of_fromSlice := by
    intro v w hread
    split_ifs at hread with h
    rw [← Except.ok.inj hread, Json.text_injective (String.toByteArray_inj.mp h.choose_spec.2)]
    exact .refl v

end Caminus
