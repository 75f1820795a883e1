import Binder.Json.Reader
import Binder.Json.Writer
import Mathlib.Tactic.Common

/-! JSON text that is read back. A value in which nothing is garbled and every number is well formed is
what one gets from its own text: the scanner finds the tokens that were written, and the reader puts
them together again. -/
namespace Binder.Json

variable {c : Char} {cs rest : List Char} {m m' : Mode} {ts : List Token} {t : Token} {value d : Nat}
  {read : List Piece}

/-! Numerals -/

namespace Numeral

variable {n : Numeral}

theorem isNumeric_of_isDigit (h : c.isDigit = true) : isNumeric c = true := by
  simp [isNumeric, h]

theorem all_isNumeric_of_isDigit (h : cs.all Char.isDigit = true) : cs.all isNumeric = true := by
  rw [List.all_eq_true] at h ⊢
  exact fun c hc => isNumeric_of_isDigit (h c hc)

theorem all_takeWhile_isDigit (cs : List Char) : (cs.takeWhile Char.isDigit).all isNumeric = true :=
  all_isNumeric_of_isDigit List.all_takeWhile

theorem all_of_exponent? {e : Option Int} (h : exponent? cs = some e) : cs.all isNumeric = true := by
  unfold exponent? at h
  split at h
  next => rfl
  next mark rest =>
    split at h
    next hmark =>
      have hnumeric : isNumeric mark = true := by
        rcases hmark with rfl | rfl <;> decide
      rw [List.all_cons, hnumeric, Bool.true_and]
      simp only at h
      split at h <;>
      · split at h
        next hdigits =>
          have hall := all_isNumeric_of_isDigit hdigits.2
          simp_all [isNumeric]
        next => cases h
    next => cases h

theorem all_of_unsigned? {negative : Bool} (h : unsigned? negative cs = some n) :
    cs.all isNumeric = true ∧ ∃ c ds, cs = c :: ds ∧ c.isDigit = true := by
  have hsplit : cs.takeWhile Char.isDigit ++ cs.dropWhile Char.isDigit = cs :=
    List.takeWhile_append_dropWhile
  unfold unsigned? at h
  simp only at h
  split at h
  · cases h
  next hwhole =>
    have hhead : ∃ c ds, cs = c :: ds ∧ c.isDigit = true := by
      cases cs with
      | nil => simp at hwhole
      | cons c ds =>
        refine ⟨c, ds, rfl, ?_⟩
        by_contra hdigit
        simp [hdigit] at hwhole
    refine ⟨?_, hhead⟩
    rw [← hsplit, List.all_append, all_takeWhile_isDigit, Bool.true_and]
    split at h
    next tail hrest =>
      split at h
      · cases h
      next =>
        obtain ⟨e, he, -⟩ := Option.map_eq_some_iff.mp h
        rw [hrest, List.all_cons, ← List.takeWhile_append_dropWhile (p := Char.isDigit) (l := tail),
          List.all_append, all_takeWhile_isDigit, all_of_exponent? he]
        decide
    next =>
      obtain ⟨e, he, -⟩ := Option.map_eq_some_iff.mp h
      exact all_of_exponent? he

theorem all_of_ofChars? (h : ofChars? cs = some n) :
    ∃ c ds, cs = c :: ds ∧ (c = '-' ∨ c.isDigit = true) ∧ ds.all isNumeric = true := by
  unfold ofChars? at h
  split at h
  next ds => exact ⟨'-', ds, rfl, .inl rfl, (all_of_unsigned? h).1⟩
  next =>
    obtain ⟨hall, c, ds, rfl, hdigit⟩ := all_of_unsigned? h
    rw [List.all_cons, Bool.and_eq_true] at hall
    exact ⟨c, ds, rfl, .inr hdigit, hall.2⟩

end Numeral

/-! Scanning -/

theorem scan_cons (h : m.step c = some (ts, m')) :
    scan m (c :: cs) = (scan m' cs).map (ts ++ ·) := by
  rw [scan, h]
  cases ts with
  | nil =>
    show scan m' cs = (scan m' cs).map id
    rw [Option.map_id, id]
  | cons => rfl

theorem scan_silent {n : Mode} (h : m.step c = some ([], n)) : scan m (c :: cs) = scan n cs := by
  rw [scan, h]

/-- A text in front of which numbers and words end. -/
def Breaks (rest : List Char) : Prop := ∀ c ∈ rest.head?, isNumeric c = false ∧ isLetter c = false

theorem breaks_nil : Breaks [] := nofun

theorem breaks_cons (h : isNumeric c = false ∧ isLetter c = false) : Breaks (c :: rest) := by
  rintro _ ⟨⟩
  exact h

theorem scan_end (hfinish : m.finish? = some [t])
    (hstep : ∀ c cs, rest = c :: cs →
      m.step c = (start? c).map fun (ts, m) => (t :: ts, m)) :
    scan m rest = (scan .between rest).map (t :: ·) := by
  cases rest with
  | nil => rw [scan, hfinish]; rfl
  | cons c cs =>
    have hc := hstep c cs rfl
    cases hstart : start? c with
    | none =>
      rw [hstart, Option.map_none] at hc
      have hbetween : Mode.step .between c = none := hstart
      rw [scan, hc, scan, hbetween]
      rfl
    | some r =>
      obtain ⟨ts, m'⟩ := r
      rw [hstart, Option.map_some] at hc
      rw [scan_cons hc, scan_cons (m := .between) hstart, Option.map_map]
      rfl

theorem scan_numeral_append {read ds : List Char} (h : ds.all isNumeric = true) :
    scan (.numeral read) (ds ++ rest) = scan (.numeral (ds.reverse ++ read)) rest := by
  induction ds generalizing read with
  | nil => rfl
  | cons d ds ih =>
    rw [List.all_cons, Bool.and_eq_true] at h
    have hstep : Mode.step (.numeral read) d = some ([], .numeral (d :: read)) := by
      rw [Mode.step, if_pos h.1]
    rw [List.cons_append, scan_silent hstep, ih h.2, List.reverse_cons, List.append_assoc]
    rfl

theorem isNumeric_start (h : c = '-' ∨ c.isDigit = true) :
    start? c = some ([], .numeral [c]) := by
  have hne : ∀ d : Char, d.isDigit = false → d ≠ '-' → c ≠ d := by
    rintro d hd hd' rfl
    rcases h with h | h
    · exact hd' h
    · rw [hd] at h
      cases h
  have hblank : isBlank c = false := by
    simp [isBlank, hne ' ' (by decide) (by decide), hne '\t' (by decide) (by decide),
      hne '\n' (by decide) (by decide), hne '\r' (by decide) (by decide)]
  rw [start?, hblank, if_neg Bool.false_ne_true, if_neg (hne '[' (by decide) (by decide)),
    if_neg (hne ']' (by decide) (by decide)), if_neg (hne '\x7b' (by decide) (by decide)),
    if_neg (hne '\x7d' (by decide) (by decide)), if_neg (hne ',' (by decide) (by decide)),
    if_neg (hne ':' (by decide) (by decide)), if_neg (hne '"' (by decide) (by decide)), if_pos h]

theorem scan_number {text : String} {n : Numeral} (h : Numeral.ofChars? text.toList = some n)
    (hbreak : Breaks rest) :
    scan .between (text.toList ++ rest) = (scan .between rest).map (.number text :: ·) := by
  obtain ⟨c, ds, htext, hc, hds⟩ := Numeral.all_of_ofChars? h
  have hnumber : number? (ds.reverse ++ [c]) = some (.number text) := by
    have hread : (ds.reverse ++ [c]).reverse = text.toList := by rw [htext]; simp
    rw [number?, hread, h, Option.map_some, String.ofList_toList]
  rw [htext, List.cons_append, scan_silent (m := .between) (isNumeric_start hc),
    scan_numeral_append hds]
  apply scan_end
  · rw [Mode.finish?, hnumber]
    rfl
  · rintro c cs rfl
    have hend := (hbreak c rfl).1
    rw [Mode.step, if_neg (by simp [hend]), hnumber, Option.bind_some]

theorem scan_word (read : List Char) (h : word? read = some t) (hbreak : Breaks rest) :
    scan (.word read) rest = (scan .between rest).map (t :: ·) := by
  apply scan_end
  · rw [Mode.finish?, h]
    rfl
  · rintro c cs rfl
    have hend := (hbreak c rfl).2
    rw [Mode.step, if_neg (by simp [hend]), h, Option.bind_some]

/-! Strings -/

theorem hexDigit?_digitChar : ∀ d < 16, hexDigit? (Nat.digitChar d) = some d := by decide

theorem fourDigits_of_lt : ∀ n < 32, (fourDigits n).toList =
    ['0', '0', Nat.digitChar (n / 16), Nat.digitChar (n % 16)] := by decide

theorem scan_code {digits : Nat} (hd : d < 16) (hdigits : digits ≠ 3) :
    scan (.quote (.code digits value) read) (Nat.digitChar d :: rest) =
      scan (.quote (.code (digits + 1) (16 * value + d)) read) rest := by
  apply scan_silent
  rw [Mode.step, if_neg (by simp), Quote.step, hexDigit?_digitChar d hd]
  simp [hdigits]

theorem scan_code_last (hd : d < 16) :
    scan (.quote (.code 3 value) read) (Nat.digitChar d :: rest) =
      scan (.quote .plain (.ofUnit (16 * value + d) :: read)) rest := by
  apply scan_silent
  rw [Mode.step, if_neg (by simp), Quote.step, hexDigit?_digitChar d hd]
  rfl

theorem scan_control (h : c.toNat < 0x20) (read : List Piece) :
    scan (.quote .plain read) (("\\u" ++ fourDigits c.toNat).toList ++ rest) =
      scan (.quote .plain (.char c :: read)) rest := by
  have hzero : '0' = Nat.digitChar 0 := rfl
  have hunit : Piece.ofUnit c.toNat = .char c := by
    rw [Piece.ofUnit, if_neg (by omega), if_neg (by omega), Char.ofNat_toNat]
  have hvalue : 16 * (16 * (16 * (16 * 0 + 0) + 0) + c.toNat / 16) + c.toNat % 16 = c.toNat := by omega
  rw [String.toList_append, fourDigits_of_lt _ h]
  show scan (.quote .plain read) ('\\' :: 'u' :: '0' :: '0' :: _ :: _ :: rest) = _
  rw [scan_silent (n := .quote .backslash read) rfl, scan_silent (n := .quote (.code 0 0) read) rfl,
    hzero, scan_code (by decide) (by decide), scan_code (by decide) (by decide),
    scan_code (by omega) (by decide), scan_code_last (Nat.mod_lt _ (by decide)), hvalue, hunit]

theorem scan_escape (c : Char) (read : List Piece) :
    scan (.quote .plain read) ((escape c).toList ++ rest) =
      scan (.quote .plain (.char c :: read)) rest := by
  have hescaped : ∀ {d : Char}, unescape? d = some c → d ≠ 'u' →
      scan (.quote .plain read) ('\\' :: d :: rest) = scan (.quote .plain (.char c :: read)) rest := by
    intro d hd hu
    have hstep : Mode.step (.quote .backslash read) d = some ([], .quote .plain (.char c :: read)) := by
      rw [Mode.step, if_neg (by simp), Quote.step, if_neg hu, hd]
      rfl
    rw [scan_silent (n := .quote .backslash read) rfl, scan_silent hstep]
  unfold escape
  split
  next h => subst h; exact hescaped (by decide) (by decide)
  split
  next h => subst h; exact hescaped (by decide) (by decide)
  split
  next h => subst h; exact hescaped (by decide) (by decide)
  split
  next h => subst h; exact hescaped (by decide) (by decide)
  split
  next h => subst h; exact hescaped (by decide) (by decide)
  split
  next h => subst h; exact hescaped (by decide) (by decide)
  split
  next h => subst h; exact hescaped (by decide) (by decide)
  next hquote hslash _ _ _ _ _ =>
    split
    next hcontrol => exact scan_control hcontrol read
    next hplain =>
      have hstep : Mode.step (.quote .plain read) c = some ([], .quote .plain (.char c :: read)) := by
        rw [Mode.step, if_neg (by simp [hquote]), Quote.step, if_neg hslash, if_neg hplain]
        rfl
      rw [Char.toString, String.toList_singleton, List.singleton_append, scan_silent hstep]

theorem scan_escapes (cs : List Char) (read : List Piece) :
    scan (.quote .plain read) (cs.flatMap (fun c => (escape c).toList) ++ rest) =
      scan (.quote .plain ((cs.map .char).reverse ++ read)) rest := by
  induction cs generalizing read with
  | nil => rfl
  | cons c cs ih =>
    rw [List.flatMap_cons, List.append_assoc, scan_escape, ih, List.map_cons, List.reverse_cons,
      List.append_assoc]
    rfl

theorem join?_map_char (cs : List Char) : Piece.join? (cs.map .char) = some cs := by
  induction cs with
  | nil => rfl
  | cons c cs ih => rw [List.map_cons, Piece.join?, ih, Option.map_some]

theorem toList_quote (s : String) :
    (quote s).toList = '"' :: s.toList.flatMap (fun c => (escape c).toList) ++ ['"'] := by
  rw [quote, String.toList_append, String.toList_append, String.toList_join, List.flatMap_map]
  rfl

theorem scan_quote (s : String) :
    scan .between ((quote s).toList ++ rest) = (scan .between rest).map (.string s :: ·) := by
  have htoken : stringToken (s.toList.map .char).reverse = .string s := by
    rw [stringToken, List.reverse_reverse, join?_map_char]
    exact congrArg Token.string String.ofList_toList
  have hend : Mode.step (.quote .plain (s.toList.map .char).reverse) '"' =
      some ([.string s], .between) := by
    rw [Mode.step, if_pos ⟨rfl, rfl⟩, htoken]
  rw [toList_quote, List.append_assoc, List.cons_append,
    scan_silent (n := .quote .plain []) rfl, scan_escapes, List.append_nil]
  exact scan_cons hend

/-! Tokens -/

/-- A token that is not garbled, with a number that is well formed. -/
def Token.Legible : Token → Prop
  | .number text => (Numeral.ofChars? text.toList).isSome
  | .garbled => False
  | _ => True

/-- A token whose end can only be told from what follows. -/
def Token.isOpenEnded : Token → Bool
  | .null | .boolean _ | .number _ => true
  | _ => false

theorem scan_token (ht : t.Legible) (hbreak : t.isOpenEnded = true → Breaks rest) :
    scan .between (t.text.toList ++ rest) = (scan .between rest).map (t :: ·) := by
  cases t with
  | openList => exact scan_cons (m := .between) (c := '[') rfl
  | closeList => exact scan_cons (m := .between) (c := ']') rfl
  | openObject => exact scan_cons (m := .between) (c := '\x7b') rfl
  | closeObject => exact scan_cons (m := .between) (c := '\x7d') rfl
  | comma => exact scan_cons (m := .between) (c := ',') rfl
  | colon => exact scan_cons (m := .between) (c := ':') rfl
  | null =>
    exact scan_word ['l', 'l', 'u', 'n'] (by decide) (hbreak rfl)
  | boolean b =>
    cases b with
    | true => exact scan_word ['e', 'u', 'r', 't'] (by decide) (hbreak rfl)
    | false => exact scan_word ['e', 's', 'l', 'a', 'f'] (by decide) (hbreak rfl)
  | number text =>
    obtain ⟨n, hn⟩ := Option.isSome_iff_exists.mp ht
    exact scan_number hn (hbreak rfl)
  | string s => exact scan_quote s
  | garbled => exact ht.elim

def textOf (ts : List Token) : List Char := ts.flatMap fun t => t.text.toList

theorem toList_compact (v : Json) : v.compact.toList = textOf v.tokens := by
  rw [compact, String.toList_join, List.flatMap_map, textOf]

theorem textOf_cons (t : Token) (ts : List Token) : textOf (t :: ts) = t.text.toList ++ textOf ts :=
  List.flatMap_cons

theorem textOf_singleton (t : Token) : textOf [t] = t.text.toList := List.flatMap_singleton ..

theorem textOf_append (ts us : List Token) : textOf (ts ++ us) = textOf ts ++ textOf us :=
  List.flatMap_append

theorem scan_mark (t : Token) (ht : t.Legible) (hend : t.isOpenEnded = false) (ts : List Token)
    (rest : List Char) :
    scan .between (textOf (t :: ts) ++ rest) =
      (scan .between (textOf ts ++ rest)).map (t :: ·) := by
  rw [textOf_cons, List.append_assoc]
  apply scan_token ht
  rw [hend]
  nofun

theorem breaks_mark {t : Token} (h : t ∈ [Token.comma, .closeList, .closeObject]) :
    Breaks (textOf (t :: ts) ++ rest) := by
  simp only [List.mem_cons, List.not_mem_nil, or_false] at h
  rcases h with rfl | rfl | rfl <;> exact breaks_cons (by decide)

theorem scan_then (ts : List Token) {us : List Token} {more : List Char}
    (h : scan .between more = (scan .between rest).map (us ++ ·)) :
    (scan .between more).map (ts ++ ·) = (scan .between rest).map (ts ++ us ++ ·) := by
  rw [h, Option.map_map]
  congr 1
  funext l
  exact (List.append_assoc ..).symm

mutual

theorem scan_value : (v : Json) → v.isSound = true → ∀ {rest : List Char}, Breaks rest →
    scan .between (textOf v.tokens ++ rest) = (scan .between rest).map (v.tokens ++ ·)
  | .null, _, rest, hbreak => by
    rw [tokens, textOf_singleton]
    exact scan_token (t := .null) trivial fun _ => hbreak
  | .boolean b, _, rest, hbreak => by
    rw [tokens, textOf_singleton]
    exact scan_token (t := .boolean b) trivial fun _ => hbreak
  | .number text, h, rest, hbreak => by
    rw [tokens, textOf_singleton]
    apply scan_token (t := .number text) ?_ fun _ => hbreak
    rw [isSound] at h
    rw [Token.Legible]
    cases hn : Numeral.ofChars? text.toList with
    | none => rw [hn] at h; cases h
    | some n => rfl
  | .string s, _, rest, hbreak => by
    rw [tokens, textOf_singleton]
    exact scan_token (t := .string s) trivial fun _ => hbreak
  | .garbled, h, _, _ => by cases h
  | .list items, h, rest, hbreak => by
    rw [isSound] at h
    rw [tokens, List.cons_append, scan_mark .openList trivial rfl, textOf_append, List.append_assoc]
    have hclose := scan_mark .closeList trivial rfl [] rest
    exact scan_then [.openList]
      ((scan_items items h (breaks_mark (by simp))).trans (scan_then _ hclose))
  | .object fields, h, rest, hbreak => by
    rw [isSound] at h
    rw [tokens, List.cons_append, scan_mark .openObject trivial rfl, textOf_append, List.append_assoc]
    have hclose := scan_mark .closeObject trivial rfl [] rest
    exact scan_then [.openObject]
      ((scan_fields fields h (breaks_mark (by simp))).trans (scan_then _ hclose))

theorem scan_items : (items : List Json) → allSound items = true → ∀ {rest : List Char}, Breaks rest →
    scan .between (textOf (itemTokens items) ++ rest) =
      (scan .between rest).map (itemTokens items ++ ·)
  | [], _, rest, _ => by simp [itemTokens, textOf]
  | [v], h, rest, hbreak => by
    rw [allSound, allSound, Bool.and_true] at h
    exact scan_value v h hbreak
  | v :: w :: items, h, rest, hbreak => by
    rw [allSound, Bool.and_eq_true] at h
    have hrest := scan_items (w :: items) h.2 hbreak
    have hcomma := scan_mark .comma trivial rfl (itemTokens (w :: items)) rest
    rw [itemTokens, textOf_append, List.append_assoc]
    · rw [scan_value v h.1 (breaks_mark (by simp))]
      exact scan_then _ (hcomma.trans (scan_then [.comma] hrest))
    · simp

theorem scan_fields : (fields : List (String × Json)) → allFieldsSound fields = true →
    ∀ {rest : List Char}, Breaks rest → scan .between (textOf (fieldTokens fields) ++ rest) =
      (scan .between rest).map (fieldTokens fields ++ ·)
  | [], _, rest, _ => by simp [fieldTokens, textOf]
  | [(name, v)], h, rest, hbreak => by
    rw [allFieldsSound, allFieldsSound, Bool.and_true] at h
    rw [fieldTokens, scan_mark (.string name) trivial rfl, scan_mark .colon trivial rfl, Option.map_map]
    exact scan_then [.string name, .colon] (scan_value v h hbreak)
  | (name, v) :: field :: fields, h, rest, hbreak => by
    rw [allFieldsSound, Bool.and_eq_true] at h
    have hrest := scan_fields (field :: fields) h.2 hbreak
    have hcomma := scan_mark .comma trivial rfl (fieldTokens (field :: fields)) rest
    rw [fieldTokens, List.cons_append, List.cons_append, scan_mark (.string name) trivial rfl,
      scan_mark .colon trivial rfl, Option.map_map, textOf_append, List.append_assoc]
    · exact scan_then [.string name, .colon] ((scan_value v h.1 (breaks_mark (by simp))).trans
        (scan_then _ (hcomma.trans (scan_then [.comma] hrest))))
    · simp

end

/-! Reading -/

variable {stack : List Frame}

theorem run_cons (s : State) (t : Token) (ts : List Token) :
    run s (t :: ts) = (s.step t).bind fun s => run s ts := by
  cases s <;> rfl

theorem run_firstItem (v : Json) (items : List Json) (ts : List Token) :
    run (.firstItem stack) (itemTokens (v :: items) ++ ts) =
      run (.value (.list [] :: stack)) (itemTokens (v :: items) ++ ts) := by
  have hvalue : ∀ ts, run (.firstItem stack) (v.tokens ++ ts) =
      run (.value (.list [] :: stack)) (v.tokens ++ ts) := by
    intro ts
    cases v <;> rw [tokens] <;> rfl
  cases items with
  | nil => exact hvalue ts
  | cons w items =>
    rw [itemTokens, List.append_assoc]
    · exact hvalue _
    · simp

theorem run_firstName (field : String × Json) (fields : List (String × Json)) (ts : List Token) :
    run (.firstName stack) (fieldTokens (field :: fields) ++ ts) =
      run (.nextName [] stack) (fieldTokens (field :: fields) ++ ts) := by
  cases fields with
  | nil => rw [fieldTokens]; rfl
  | cons next fields =>
    rw [fieldTokens]
    · rfl
    · simp

theorem ofFields_reverse (fields : List (String × Json)) :
    ofFields (fields.map fun field => (some field.1, field.2)).reverse = .object fields := by
  have hnames : (fields.map fun field => ((some field.1 : Option String), field.2)).mapM
      (fun field => field.1.map fun name => (name, field.2)) = some fields := by
    induction fields with
    | nil => rfl
    | cons field fields ih => rw [List.map_cons, List.mapM_cons, ih]; rfl
  rw [ofFields, List.reverse_reverse, hnames]

mutual

theorem run_value : (v : Json) → v.isSound = true → ∀ (stack : List Frame) (ts : List Token),
    run (.value stack) (v.tokens ++ ts) = run (deliver stack v) ts
  | .null, _, stack, ts | .boolean _, _, stack, ts | .number _, _, stack, ts
  | .string _, _, stack, ts => by
    rw [tokens]
    exact run_cons ..
  | .garbled, h, _, _ => by cases h
  | .list [], _, stack, ts => by
    rw [tokens, itemTokens]
    exact (run_cons ..).trans (run_cons ..)
  | .list (v :: items), h, stack, ts => by
    rw [isSound] at h
    have hitems := run_items (v :: items) (by simp) h [] stack ts
    rw [← run_firstItem] at hitems
    rw [tokens, List.cons_append, List.cons_append, List.append_assoc, run_cons]
    exact hitems
  | .object [], _, stack, ts => by
    rw [tokens, fieldTokens]
    exact (run_cons ..).trans (run_cons ..)
  | .object (field :: fields), h, stack, ts => by
    rw [isSound] at h
    have hfields := run_fields (field :: fields) (by simp) h [] stack ts
    rw [← run_firstName, List.append_nil, ofFields_reverse] at hfields
    rw [tokens, List.cons_append, List.cons_append, List.append_assoc, run_cons]
    exact hfields

theorem run_items : (items : List Json) → items ≠ [] → allSound items = true →
    ∀ (read : List Json) (stack : List Frame) (ts : List Token),
    run (.value (.list read :: stack)) (itemTokens items ++ .closeList :: ts) =
      run (deliver stack (.list (read.reverse ++ items))) ts
  | [v], _, h, read, stack, ts => by
    rw [allSound, allSound, Bool.and_true] at h
    rw [itemTokens, run_value v h, deliver, run_cons, ← List.reverse_cons]
    rfl
  | v :: w :: items, _, h, read, stack, ts => by
    rw [allSound, Bool.and_eq_true] at h
    have hrest := run_items (w :: items) (by simp) h.2 (v :: read) stack ts
    rw [List.reverse_cons, List.append_assoc] at hrest
    rw [itemTokens, List.append_assoc]
    · rw [run_value v h.1, deliver, List.cons_append, run_cons]
      exact hrest
    · simp

theorem run_fields : (fields : List (String × Json)) → fields ≠ [] → allFieldsSound fields = true →
    ∀ (read : Fields) (stack : List Frame) (ts : List Token),
    run (.nextName read stack) (fieldTokens fields ++ .closeObject :: ts) =
      run (deliver stack (ofFields ((fields.map fun field => (some field.1, field.2)).reverse ++ read)))
        ts
  | [(name, v)], _, h, read, stack, ts => by
    rw [allFieldsSound, allFieldsSound, Bool.and_true] at h
    rw [fieldTokens, List.cons_append, List.cons_append, run_cons]
    show run (.colon read (some name) stack) _ = _
    rw [run_cons]
    show run (.value (.field read (some name) :: stack)) _ = _
    rw [run_value v h, deliver, run_cons]
    rfl
  | (name, v) :: field :: fields, _, h, read, stack, ts => by
    rw [allFieldsSound, Bool.and_eq_true] at h
    have hrest := run_fields (field :: fields) (by simp) h.2 ((some name, v) :: read) stack ts
    rw [fieldTokens, List.cons_append, List.cons_append, List.cons_append, List.cons_append, run_cons]
    · show run (.colon read (some name) stack) _ = _
      rw [run_cons]
      show run (.value (.field read (some name) :: stack)) _ = _
      rw [List.append_assoc, run_value v h.1, deliver, List.cons_append, run_cons]
      rw [List.map_cons, List.reverse_cons, List.append_assoc]
      exact hrest
    · simp

end

/-- A sound value is what one reads from its text. -/
theorem parse?_compact {v : Json} (h : v.isSound = true) : parse? v.compact = some v := by
  have hscan : scan .between (textOf v.tokens ++ []) = _ := scan_value v h breaks_nil
  have hread := run_value v h [] []
  rw [List.append_nil] at hscan hread
  rw [parse?, toList_compact, hscan]
  show run (.value []) (v.tokens ++ []) = _
  rw [List.append_nil, hread]
  rfl

end Binder.Json
