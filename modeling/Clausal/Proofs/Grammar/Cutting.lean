import Clausal.Grammar.Parser
import Clausal.Proofs.Decimal.Numerals

/-!
# Cutting a text piece by piece

What the tokenizer makes of a piece of text depends only on the character that follows the piece. So
a text that is put together from pieces is cut into the tokens of the pieces, as long as every piece
ends where the next one starts.
-/

namespace Clausal

namespace Text

theorem exists_run_of_inRuns {rs : List Run} {n : Nat} (h : inRuns rs n = true) :
    ∃ r ∈ rs, r.first ≤ n ∧ n ≤ r.last := by
  induction rs with
  | nil => simp [inRuns] at h
  | cons r rs ih =>
      rw [inRuns] at h
      split at h
      · cases h
      · rcases Bool.or_eq_true_iff.mp h with hr | hrs
        · simp only [Run.holds, Bool.and_eq_true, decide_eq_true_eq] at hr
          exact ⟨r, List.mem_cons_self, hr.1⟩
        · obtain ⟨r', hr', hn⟩ := ih hrs
          exact ⟨r', List.mem_cons_of_mem r hr', hn⟩

theorem not_word_of_isBlank {c : Char} (h : isBlank c = true) :
    isWordChar c = false ∧ isDigit c = false := by
  have htable : ∀ r ∈ blankRuns, ∀ n ∈ List.range' r.first (r.last + 1 - r.first),
      isWordChar (Char.ofNat n) = false ∧ isDigit (Char.ofNat n) = false := by
    decide +kernel
  obtain ⟨r, hr, hfirst, hlast⟩ := exists_run_of_inRuns h
  have hc := htable r hr c.toNat (List.mem_range'_1.mpr ⟨hfirst, by omega⟩)
  rwa [Char.ofNat_toNat] at hc

end Text

namespace Grammar

open Text (isBlank isDigit isWordChar)

/-- The operators that are functors. -/
def functorSymbols : List String := ["+", "-", "*", "/", "=", "<", ">", "<=", ">="]

/-! ## The first pattern that matches -/

/-- The character starts neither a comment nor white space nor a string. -/
structure Bare (c : Char) : Prop where
  comment : c ≠ '%'
  blank : isBlank c = false
  string : c ≠ '"'

theorem bare_of_isWordChar {c : Char} (h : isWordChar c = true ∨ isDigit c = true) : Bare c where
  comment := by
    rintro rfl
    revert h
    decide
  blank := by
    refine Bool.eq_false_iff.mpr fun hblank => ?_
    obtain ⟨hword, hdigit⟩ := Text.not_word_of_isBlank hblank
    simp [hword, hdigit] at h
  string := by
    rintro rfl
    revert h
    decide

theorem comment?_of_ne {c : Char} {cs : List Char} (h : c ≠ '%') : comment? (c :: cs) = none := by
  rw [comment?.eq_def]
  split
  · next heq => exact (h (List.cons.inj heq).1).elim
  · rfl

theorem blank?_of_not {c : Char} {cs : List Char} (h : isBlank c = false) :
    blank? (c :: cs) = none := by
  simp [blank?, h]

theorem number?_of_not {c : Char} {cs : List Char} (h : isDigit c = false) :
    number? (c :: cs) = none := by
  simp [number?, h]

theorem lexeme?_of_bare {c : Char} {cs : List Char} (h : Bare c) :
    lexeme? (c :: cs) = (patterns.drop 3).findSome? fun (kind, pattern) =>
      (pattern (c :: cs)).map (kind, ·) := by
  have hstring : string? (c :: cs) = none := by
    rw [string?.eq_def]
    split
    · next heq => exact (h.string (List.cons.inj heq).1).elim
    · rfl
  simp [lexeme?, patterns, comment?_of_ne h.comment, blank?_of_not h.blank, hstring]

/-- Nothing but a string starts with a quote. -/
theorem lexeme?_quote (cs : List Char) :
    lexeme? ('"' :: cs) = (string? ('"' :: cs)).map (.token .string, ·) := by
  have hcomment : comment? ('"' :: cs) = none := rfl
  have hblank : blank? ('"' :: cs) = none := blank?_of_not (by decide)
  have hnumber : number? ('"' :: cs) = none := number?_of_not (by decide)
  have hname : name? ('"' :: cs) = none := by
    rw [name?]
    exact if_neg (by decide)
  have hneck : neck? ('"' :: cs) = none := rfl
  have hop : op? ('"' :: cs) = none := rfl
  have hpunct : punct? ('"' :: cs) = none := rfl
  cases hstring : string? ('"' :: cs) <;>
    simp [lexeme?, patterns, hcomment, hblank, hstring, hnumber, hname, hneck, hop, hpunct]

theorem lexeme?_number {c : Char} {cs m : List Char} (hc : isDigit c = true)
    (h : number? (c :: cs) = some m) : lexeme? (c :: cs) = some (.token .number, m) := by
  rw [lexeme?_of_bare (bare_of_isWordChar (.inr hc))]
  simp [patterns, h]

theorem lexeme?_name {c : Char} {cs m : List Char} (h : name? (c :: cs) = some m) :
    lexeme? (c :: cs) = some (.token .name, m) := by
  have hc : isWordChar c = true ∧ isDigit c = false := by
    rw [name?] at h
    split at h
    · next hc => simpa using hc
    · cases h
  rw [lexeme?_of_bare (bare_of_isWordChar (.inl hc.1))]
  simp [patterns, number?_of_not hc.2, h]

/-- The characters that stand for themselves outside of names, numbers and strings. -/
def symbolChars : List Char := [':', '=', '<', '>', '+', '-', '*', '/', '(', ')', ',', '.']

theorem lexeme?_symbol {c : Char} {cs : List Char} (hc : c ∈ symbolChars) :
    lexeme? (c :: cs) = (patterns.drop 5).findSome? fun (kind, pattern) =>
      (pattern (c :: cs)).map (kind, ·) := by
  have htable : (symbolChars.all fun c => c != '%' && !isBlank c && c != '"' && !isDigit c &&
      !isWordChar c) = true := by
    decide
  obtain ⟨⟨⟨⟨hcomment, hblank⟩, hstring⟩, hdigit⟩, hword⟩ :
      (((c ≠ '%' ∧ isBlank c = false) ∧ c ≠ '"') ∧ isDigit c = false) ∧ isWordChar c = false := by
    simpa using List.all_eq_true.mp htable c hc
  rw [lexeme?_of_bare ⟨hcomment, hblank, hstring⟩]
  simp [patterns, number?_of_not hdigit, name?, hword]

/-! ## Pieces -/

/-- The tokens that a match gives. -/
def Lexeme.tokens (pos : Nat) (m : List Char) : Lexeme → List Token
  | .separator => []
  | .token kind => [⟨kind, String.ofList m, pos⟩]

theorem tokensFrom_append {l : Lexeme} {m rest : List Char} (hm : m ≠ [])
    (h : lexeme? (m ++ rest) = some (l, m)) (pos : Nat) :
    tokensFrom pos (m ++ rest) = (tokensFrom (pos + m.length) rest).map (l.tokens pos m ++ ·) := by
  obtain ⟨c, m, rfl⟩ := List.exists_cons_of_ne_nil hm
  rw [List.cons_append] at h ⊢
  rw [tokensFrom, h]
  simp only [List.length_cons, Nat.add_sub_cancel, List.drop_left]
  cases tokensFrom (pos + (m.length + 1)) rest with
  | error e => rfl
  | ok ts => cases l <;> rfl

/-- The piece is cut into the tokens wherever a character that may follow it, or
nothing, follows. -/
def Cuts (follows : Char → Prop) (pos : Nat) (cs : List Char) (ts : List Token) : Prop :=
  ∀ rest : List Char, (∀ c ∈ rest.head?, follows c) →
    tokensFrom pos (cs ++ rest) = (tokensFrom (pos + cs.length) rest).map (ts ++ ·)

namespace Cuts

variable {P Q : Char → Prop} {pos : Nat} {cs cs' : List Char} {ts ts' : List Token}

theorem nil : Cuts P pos [] [] := by
  intro rest _
  change tokensFrom pos rest = (tokensFrom pos rest).map id
  cases tokensFrom pos rest <;> rfl

theorem mono (h : Cuts P pos cs ts) (hPQ : ∀ c, Q c → P c) : Cuts Q pos cs ts :=
  fun rest hrest => h rest fun c hc => hPQ c (hrest c hc)

/-- The second piece may start where the first one ends. -/
theorem append (h : Cuts P pos cs ts) (h' : Cuts Q (pos + cs.length) cs' ts')
    (hhead : ∀ c ∈ cs'.head?, P c) (hnil : cs' = [] → ∀ c, Q c → P c) :
    Cuts Q pos (cs ++ cs') (ts ++ ts') := by
  intro rest hrest
  have hmiddle : ∀ c ∈ (cs' ++ rest).head?, P c := by
    cases cs' with
    | nil => exact fun c hc => hnil rfl c (hrest c hc)
    | cons c cs' => exact hhead
  rw [List.append_assoc, h _ hmiddle, h' rest hrest, List.length_append, ← Nat.add_assoc]
  cases tokensFrom (pos + cs.length + cs'.length) rest with
  | error e => rfl
  | ok ts => simp [Except.map]

/-- Anything may follow the first piece. -/
theorem append_free (h : Cuts (fun _ => True) pos cs ts) (h' : Cuts Q (pos + cs.length) cs' ts') :
    Cuts Q pos (cs ++ cs') (ts ++ ts') :=
  h.append h' (fun _ _ => trivial) (fun _ _ _ => trivial)

theorem tokenize_eq (h : Cuts P 0 cs ts) : tokenize (String.ofList cs) = .ok ts := by
  have hall := h [] (by simp)
  rw [List.append_nil, tokensFrom] at hall
  rw [tokenize, String.toList_ofList, hall, Except.map, List.append_nil]

end Cuts

theorem cuts_of_lexeme? {P : Char → Prop} {kind : TokenKind} {m : List Char} (hm : m ≠ [])
    (h : ∀ rest : List Char, (∀ c ∈ rest.head?, P c) → lexeme? (m ++ rest) = some (.token kind, m))
    (pos : Nat) : Cuts P pos m [⟨kind, String.ofList m, pos⟩] :=
  fun rest hrest => tokensFrom_append hm (h rest hrest) pos

theorem cuts_punct {c : Char} (hc : c ∈ ['(', ')', ',', '.']) (pos : Nat) :
    Cuts (fun _ => True) pos [c] [⟨.punct, String.ofList [c], pos⟩] := by
  refine cuts_of_lexeme? (by simp) (fun rest _ => ?_) pos
  simp only [List.mem_cons, List.not_mem_nil, or_false] at hc
  rw [List.singleton_append]
  rcases hc with rfl | rfl | rfl | rfl
  all_goals
    rw [lexeme?_symbol (by decide)]
    rfl

theorem cuts_period (pos : Nat) : Cuts (fun _ => True) pos ['.'] [⟨.punct, ".", pos⟩] :=
  cuts_punct (by decide) pos

theorem cuts_neck (pos : Nat) : Cuts (fun _ => True) pos [':', '-'] [⟨.neck, ":-", pos⟩] := by
  refine cuts_of_lexeme? (by simp) (fun rest _ => ?_) pos
  rw [List.cons_append, lexeme?_symbol (by decide)]
  rfl

theorem tokensFrom_dropWhile_isBlank (pos : Nat) (cs : List Char) :
    tokensFrom pos cs =
      tokensFrom (pos + (cs.takeWhile isBlank).length) (cs.dropWhile isBlank) := by
  cases cs with
  | nil => rfl
  | cons c cs =>
      cases hc : isBlank c with
      | false => simp [hc]
      | true =>
          let m := (c :: cs).takeWhile isBlank
          have hm : m ≠ [] := by simp [m, hc]
          have hcomment : comment? (c :: cs) = none := by
            refine comment?_of_ne ?_
            rintro rfl
            exact absurd hc (by decide)
          have hlex : lexeme? (m ++ (c :: cs).dropWhile isBlank) = some (.separator, m) := by
            rw [List.takeWhile_append_dropWhile]
            have hblank : blank? (c :: cs) = some m := by simp [blank?, hc, m]
            simp [lexeme?, patterns, hcomment, hblank]
          have hcut := tokensFrom_append hm hlex pos
          rw [List.takeWhile_append_dropWhile] at hcut
          rw [hcut]
          cases tokensFrom (pos + m.length) ((c :: cs).dropWhile isBlank) <;> rfl

/-- A blank may be cut off before anything, even before more blanks. -/
theorem cuts_blank {c : Char} (hc : isBlank c = true) (pos : Nat) :
    Cuts (fun _ => True) pos [c] [] := by
  intro rest _
  have hid : ∀ r : Except Fault (List Token), r.map ([] ++ ·) = r := by
    rintro (e | ts) <;> rfl
  rw [hid, tokensFrom_dropWhile_isBlank pos, tokensFrom_dropWhile_isBlank (pos + [c].length)]
  simp only [List.singleton_append, List.takeWhile_cons, List.dropWhile_cons, hc, if_true,
    List.length_cons, List.length_nil]
  rw [Nat.add_assoc, Nat.add_comm (0 + 1)]

theorem cuts_space (pos : Nat) : Cuts (fun _ => True) pos [' '] [] := cuts_blank (by decide) pos

theorem cuts_comma (pos : Nat) : Cuts (fun _ => True) pos [',', ' '] [⟨.punct, ",", pos⟩] :=
  (cuts_punct (by decide) pos).append_free (cuts_space (pos + 1))

theorem cuts_name {name : String} (h : name? name.toList = some name.toList) (pos : Nat) :
    Cuts (fun c => isWordChar c = false) pos name.toList [⟨.name, name, pos⟩] := by
  obtain ⟨c, cs, hname⟩ : ∃ c cs, name.toList = c :: cs := by
    cases hname : name.toList with
    | nil => simp [hname, name?] at h
    | cons c cs => exact ⟨c, cs, rfl⟩
  have htext : name = String.ofList (c :: cs) := by rw [← hname, String.ofList_toList]
  rw [hname, name?] at h
  rw [htext, String.toList_ofList]
  split at h
  · next hc =>
    have hall : cs.takeWhile isWordChar = cs := (List.cons.inj (Option.some.inj h)).2
    have hword : ∀ c ∈ cs, isWordChar c = true := fun c hc =>
      List.all_eq_true.mp List.all_takeWhile c (hall.symm ▸ hc)
    refine cuts_of_lexeme? (by simp) (fun rest hrest => lexeme?_name ?_) pos
    have htake : (cs ++ rest).takeWhile isWordChar = cs := Text.takeWhile_append_stop hword hrest
    exact (if_pos hc).trans (congrArg (fun m => some (c :: m)) htake)
  · cases h

theorem cuts_number (w : Decimal.Spelling) (pos : Nat) :
    Cuts (fun c => isDigit c = false ∧ c ∉ ['.', 'e', 'E']) pos w.chars
      [⟨.number, String.ofList w.chars, pos⟩] := by
  obtain ⟨c, cs, hchars, hc⟩ := w.exists_head
  refine cuts_of_lexeme? (by simp [hchars]) (fun rest hrest => ?_) pos
  have hnumber := w.number?_append (fun c hc => (hrest c hc).1) (fun c hc => (hrest c hc).2)
  rw [hchars, List.cons_append] at hnumber ⊢
  exact lexeme?_number hc hnumber

theorem stringRest?_append {cs : List Char} (h : ∀ c ∈ cs, c ≠ '"' ∧ c ≠ '\\') (rest : List Char) :
    stringRest? (cs ++ '"' :: rest) = some (cs ++ ['"']) := by
  induction cs with
  | nil => rfl
  | cons c cs ih =>
      obtain ⟨hquote, hslash⟩ := h c List.mem_cons_self
      have hrest := ih fun c hc => h c (List.mem_cons_of_mem _ hc)
      rw [List.cons_append, stringRest?.eq_def]
      split <;> simp_all

theorem cuts_string {cs : List Char} (h : ∀ c ∈ cs, c ≠ '"' ∧ c ≠ '\\') (pos : Nat) :
    Cuts (fun _ => True) pos ('"' :: cs ++ ['"'])
      [⟨.string, String.ofList ('"' :: cs ++ ['"']), pos⟩] := by
  refine cuts_of_lexeme? (by simp) (fun rest _ => ?_) pos
  have hstring : string? ('"' :: (cs ++ '"' :: rest)) = some ('"' :: (cs ++ ['"'])) := by
    rw [string?, stringRest?_append h]
  simp [lexeme?_quote, hstring]

theorem op?_singleton {c : Char} {rest : List Char}
    (hc : ['=', '<', '>', '+', '-', '*', '/'].contains c = true)
    (hrest : ∀ c ∈ rest.head?, c ≠ '=' ∧ c ≠ '<') : op? (c :: rest) = some [c] := by
  have hother : ∀ c' c'' cs, c :: rest = c' :: c'' :: cs → c'' ≠ '=' ∧ c'' ≠ '<' := by
    intro c' c'' cs heq
    exact hrest c'' (by simp [(List.cons.inj heq).2])
  rw [op?.eq_def]
  split
  · next heq => exact ((hother _ _ _ heq).1 rfl).elim
  · next heq => exact ((hother _ _ _ heq).1 rfl).elim
  · next heq => exact ((hother _ _ _ heq).2 rfl).elim
  · next heq =>
    obtain ⟨rfl, rfl⟩ := List.cons.inj heq
    rw [if_pos hc]
  · next heq => cases heq

theorem cuts_op {op : String} (h : op ∈ functorSymbols) (pos : Nat) :
    Cuts (fun c => c ≠ '=' ∧ c ≠ '<') pos op.toList [⟨.op, op, pos⟩] := by
  have hsingle : ∀ c ∈ ['=', '<', '>', '+', '-', '*', '/'],
      Cuts (fun c => c ≠ '=' ∧ c ≠ '<') pos [c] [⟨.op, String.ofList [c], pos⟩] := by
    intro c hc
    refine cuts_of_lexeme? (by simp) (fun rest hrest => ?_) pos
    have hneck : neck? (c :: rest) = none := by
      rw [neck?.eq_def]
      split
      · next heq =>
        obtain rfl := (List.cons.inj heq).1
        simp at hc
      · rfl
    have hsymbol : c ∈ symbolChars :=
      List.mem_cons_of_mem ':' (List.mem_append_left ['(', ')', ',', '.'] hc)
    rw [List.singleton_append, lexeme?_symbol hsymbol]
    simp [patterns, hneck, op?_singleton (List.contains_iff_mem.mpr hc) hrest]
  have hdouble : ∀ c ∈ ['<', '>'],
      Cuts (fun c => c ≠ '=' ∧ c ≠ '<') pos [c, '='] [⟨.op, String.ofList [c, '='], pos⟩] := by
    intro c hc
    refine cuts_of_lexeme? (by simp) (fun rest hrest => ?_) pos
    simp only [List.mem_cons, List.not_mem_nil, or_false] at hc
    rcases hc with rfl | rfl
    all_goals
      rw [List.cons_append, lexeme?_symbol (by decide)]
      rfl
  simp only [functorSymbols, List.mem_cons, List.not_mem_nil, or_false] at h
  rcases h with rfl | rfl | rfl | rfl | rfl | rfl | rfl | rfl | rfl
  · exact hsingle '+' (by decide)
  · exact hsingle '-' (by decide)
  · exact hsingle '*' (by decide)
  · exact hsingle '/' (by decide)
  · exact hsingle '=' (by decide)
  · exact hsingle '<' (by decide)
  · exact hsingle '>' (by decide)
  · exact hdouble '<' (by decide)
  · exact hdouble '>' (by decide)

end Grammar

end Clausal
