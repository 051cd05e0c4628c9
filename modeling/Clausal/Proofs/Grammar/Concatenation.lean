import Clausal.Proofs.Grammar.Completeness
import Clausal.Proofs.Grammar.Lexing
import Clausal.Proofs.Grammar.Positions
import Clausal.Proofs.Grammar.Shift

/-!
# Programs one after the other

The end of a line ends every token and every comment. So a text that can be cut into tokens keeps
them when another text follows on a new line, and a program whose last clause is ended by a period
can be continued by any other program. The clauses of the second one come behind those of the first
one, and its faults move by the length of what stands in front.
-/

namespace Clausal

namespace Grammar

open Text (isBlank isDigit isWordChar)

/-! ## Matches before the end of a line -/

theorem fractionPart_length_le (cs : List Char) : (fractionPart cs).length ≤ cs.length := by
  rw [fractionPart.eq_def]
  split
  · split
    · simp
    · simpa using (List.takeWhile_prefix isDigit).length_le
  · simp

theorem stringRest?_append_of_some {cs m : List Char} (h : stringRest? cs = some m)
    (rest : List Char) :
    stringRest? (cs ++ rest) = some m := by
  fun_induction stringRest? cs generalizing m with
  | case1 => cases h
  | case2 cs => exact h
  | case3 => cases h
  | case4 c cs hline => cases h
  | case5 c cs hline m' hm ih =>
      obtain rfl := Option.some.inj h
      rw [List.cons_append, List.cons_append, stringRest?, if_neg hline, ih hm]
  | case6 => cases h
  | case7 c cs hquote hslash hpair m' hm ih =>
      have hescape : c ≠ '\\' := by
        intro hc
        cases cs with
        | nil => exact hslash hc rfl
        | cons c' cs => exact hpair c' cs hc rfl
      obtain rfl := Option.some.inj h
      rw [List.cons_append, stringRest?, ih hm]
      · exact hquote
      · exact fun hc _ => hescape hc
      · exact fun _ _ hc _ => hescape hc
  | case8 => cases h

theorem string?_append_of_some {cs m : List Char} (h : string? cs = some m) (rest : List Char) :
    string? (cs ++ rest) = some m := by
  rw [string?.eq_def] at h
  split at h
  · next cs =>
    split at h
    · next m' hm =>
      rw [List.cons_append, string?, stringRest?_append_of_some hm]
      exact h
    · cases h
  · cases h

section Lines

variable {rest : List Char} (hrest : ∀ c ∈ rest.head?, c = '\n')
include hrest

theorem eq_nil_or_line : rest = [] ∨ ∃ more, rest = '\n' :: more := by
  cases rest with
  | nil => exact .inl rfl
  | cons c more =>
      obtain rfl : c = '\n' := hrest c rfl
      exact .inr ⟨more, rfl⟩

theorem takeWhile_append_line {p : Char → Bool} (hp : p '\n' = false) (cs : List Char) :
    (cs ++ rest).takeWhile p = cs.takeWhile p := by
  induction cs with
  | nil => obtain rfl | ⟨more, rfl⟩ := eq_nil_or_line hrest <;> simp [hp]
  | cons c cs ih => rw [List.cons_append, List.takeWhile_cons, List.takeWhile_cons, ih]

theorem fractionPart_append_line (cs : List Char) :
    fractionPart (cs ++ rest) = fractionPart cs := by
  match cs with
  | [] => obtain rfl | ⟨more, rfl⟩ := eq_nil_or_line hrest <;> rfl
  | c :: cs =>
      by_cases hc : c = '.'
      · subst hc
        simp [fractionPart, takeWhile_append_line hrest (p := isDigit) (by decide)]
      · simp [fractionPart, hc]

theorem signedDigits_append_line (cs : List Char) :
    signedDigits (cs ++ rest) = signedDigits cs := by
  have htake := takeWhile_append_line hrest (p := isDigit) (by decide)
  match cs with
  | [] => obtain rfl | ⟨more, rfl⟩ := eq_nil_or_line hrest <;> rfl
  | c :: cs =>
      by_cases hplus : c = '+'
      · subst hplus
        simp [signedDigits, htake]
      · by_cases hminus : c = '-'
        · subst hminus
          simp [signedDigits, htake]
        · have := htake (c :: cs)
          simp_all [signedDigits]

theorem exponentPart_append_line (cs : List Char) :
    exponentPart (cs ++ rest) = exponentPart cs := by
  match cs with
  | [] => obtain rfl | ⟨more, rfl⟩ := eq_nil_or_line hrest <;> rfl
  | c :: cs =>
      by_cases hlower : c = 'e'
      · subst hlower
        simp [exponentPart, signedDigits_append_line hrest]
      · by_cases hupper : c = 'E'
        · subst hupper
          simp [exponentPart, signedDigits_append_line hrest]
        · simp [exponentPart, hlower, hupper]

theorem number?_append_line (cs : List Char) : number? (cs ++ rest) = number? cs := by
  have htake := takeWhile_append_line hrest (p := isDigit) (by decide) cs
  rw [number?, number?, htake]
  split
  · rfl
  · next whole _ =>
    have hwhole : (cs.takeWhile isDigit).length ≤ cs.length :=
      (List.takeWhile_prefix isDigit).length_le
    have hfraction := fractionPart_length_le (cs.drop (cs.takeWhile isDigit).length)
    simp only
    rw [List.drop_append_of_le_length hwhole, fractionPart_append_line hrest,
      List.drop_append_of_le_length hfraction, exponentPart_append_line hrest]

theorem name?_append_line {cs : List Char} (hne : cs ≠ []) : name? (cs ++ rest) = name? cs := by
  obtain ⟨c, cs, rfl⟩ := List.exists_cons_of_ne_nil hne
  rw [List.cons_append, name?, name?, takeWhile_append_line hrest (by decide)]

theorem neck?_append_line {cs : List Char} (hne : cs ≠ []) : neck? (cs ++ rest) = neck? cs := by
  match cs with
  | [c] =>
    obtain rfl | ⟨more, rfl⟩ := eq_nil_or_line hrest
    · rfl
    · simp [neck?]
  | c :: c' :: cs =>
    rw [List.cons_append, List.cons_append, neck?.eq_def, neck?.eq_def]
    grind

theorem op?_append_line {cs : List Char} (hne : cs ≠ []) : op? (cs ++ rest) = op? cs := by
  match cs with
  | [c] =>
    obtain rfl | ⟨more, rfl⟩ := eq_nil_or_line hrest
    · rfl
    · simp [op?]
  | c :: c' :: cs =>
    rw [List.cons_append, List.cons_append, op?.eq_def, op?.eq_def]
    grind

/-- A match that does not start with a blank stays the same when a new line follows. -/
theorem lexeme?_append_line {c : Char} {cs m : List Char} {l : Lexeme} (hc : isBlank c = false)
    (h : lexeme? (c :: cs) = some (l, m)) : lexeme? (c :: cs ++ rest) = some (l, m) := by
  rw [← h, List.cons_append]
  by_cases hcomment : c = '%'
  · subst hcomment
    simp [lexeme?, patterns, comment?, takeWhile_append_line hrest (p := (· != '\n')) (by decide)]
  · by_cases hquote : c = '"'
    · subst hquote
      rw [lexeme?_quote] at h
      obtain ⟨m, hstring, _⟩ := Option.map_eq_some_iff.mp h
      rw [lexeme?_quote, lexeme?_quote, hstring]
      exact congrArg _ (string?_append_of_some hstring rest)
    · have hbare : Bare c := ⟨hcomment, hc, hquote⟩
      have hne : c :: cs ≠ [] := List.cons_ne_nil c cs
      have hpunct : punct? (c :: cs ++ rest) = punct? (c :: cs) := rfl
      have hnumber := number?_append_line hrest (c :: cs)
      have hname := name?_append_line hrest hne
      have hneck := neck?_append_line hrest hne
      have hop := op?_append_line hrest hne
      rw [lexeme?_of_bare hbare, lexeme?_of_bare hbare]
      simp only [List.cons_append] at hnumber hname hneck hop hpunct
      simp only [patterns, List.drop_succ_cons, List.drop_zero, List.findSome?_cons, hnumber, hname,
        hneck, hop, hpunct, List.findSome?_nil]

end Lines

/-! ## Tokens before and behind the end of a line -/

/-- The first match of a text that can be cut into tokens, and the tokens behind it. -/
theorem exists_match_of_tokensFrom {pos : Nat} {c : Char} {cs : List Char} {ts : List Token}
    (h : tokensFrom pos (c :: cs) = .ok ts) :
    ∃ l m tail ts', m ≠ [] ∧ c :: cs = m ++ tail ∧ lexeme? (c :: cs) = some (l, m) ∧
      tokensFrom (pos + m.length) tail = .ok ts' ∧ ts = l.tokens pos m ++ ts' := by
  cases hlex : lexeme? (c :: cs) with
  | none => simp [tokensFrom, hlex] at h
  | some lm =>
      obtain ⟨l, m⟩ := lm
      have hm : FirstLongest Pattern.languages (c :: cs) l m := lexeme?_eq_some_iff.mp hlex
      obtain ⟨tail, htail⟩ := hm.isPrefix
      rw [← htail] at h hlex
      rw [tokensFrom_append hm.ne_nil hlex] at h
      cases hcut : tokensFrom (pos + m.length) tail with
      | error e => simp [hcut, Except.map] at h
      | ok ts' =>
          refine ⟨l, m, tail, ts', hm.ne_nil, htail.symm, rfl, hcut, ?_⟩
          simpa [hcut, Except.map] using h.symm

/-- A text that can be cut into tokens is cut into the same ones when a new line follows. -/
theorem cuts_line {pos : Nat} {cs : List Char} {ts : List Token} (h : tokensFrom pos cs = .ok ts) :
    Cuts (· = '\n') pos cs ts := by
  -- on the length of the text, which is shorter behind its first blank or its first match
  induction hn : cs.length using Nat.strong_induction_on generalizing pos cs ts with
  | _ n ih =>
      cases cs with
      | nil =>
          rw [tokensFrom] at h
          obtain rfl : [] = ts := Except.ok.inj h
          exact Cuts.nil
      | cons c cs =>
          cases hc : isBlank c with
          | true =>
              -- a run of blanks may go on behind the new line, so its blanks are taken one by one
              have hblank := cuts_blank hc pos
              have hcut : tokensFrom (pos + 1) cs = .ok ts := by
                have hhead := hblank cs (fun _ _ => trivial)
                rw [List.singleton_append, h] at hhead
                cases htail : tokensFrom (pos + 1) cs with
                | error e => simp [htail, Except.map] at hhead
                | ok ts' => simpa [htail, Except.map] using hhead.symm
              exact hblank.append_free (ih cs.length (by simp [← hn]) hcut rfl)
          | false =>
              obtain ⟨l, m, tail, ts', hm, htail, hlex, hcut, rfl⟩ := exists_match_of_tokensFrom h
              have hpos : 0 < m.length := List.length_pos_iff.mpr hm
              have hlen : tail.length < n := by
                rw [← hn, htail, List.length_append]
                omega
              intro rest hrest
              have hline := lexeme?_append_line hrest hc hlex
              rw [htail, List.append_assoc] at hline ⊢
              rw [tokensFrom_append hm hline, ih tail.length hlen hcut rfl rest hrest,
                List.length_append, ← Nat.add_assoc]
              cases tokensFrom (pos + m.length + tail.length) rest <;> simp [Except.map]

theorem tokensFrom_shift (k pos : Nat) (cs : List Char) :
    tokensFrom (k + pos) cs =
      ((tokensFrom pos cs).map (List.map (Token.shift k))).mapError (Fault.shift k) := by
  fun_induction tokensFrom pos cs with
  | case1 pos =>
      rw [tokensFrom]
      rfl
  | case2 pos c cs hlex =>
      rw [tokensFrom, hlex]
      rfl
  | case3 pos c cs l m hlex e hmore ih =>
      rw [tokensFrom, hlex]
      simp only [Nat.add_assoc, ih, hmore]
      rfl
  | case4 pos c cs m ts hmore hlex ih =>
      rw [tokensFrom, hlex]
      simp only [Nat.add_assoc, ih, hmore]
      rfl
  | case5 pos c cs m ts hmore kind hlex ih =>
      rw [tokensFrom, hlex]
      simp only [Nat.add_assoc, ih, hmore]
      rfl

theorem tokenize_append_line {text : String} {ts : List Token} (h : tokenize text = .ok ts)
    (more : String) :
    tokenize (text ++ "\n" ++ more) =
      ((tokenize more).map (ts ++ ·.map (Token.shift (text.length + 1)))).mapError
        (Fault.shift (text.length + 1)) := by
  have hlines : (text ++ "\n" ++ more).toList = text.toList ++ '\n' :: more.toList := by simp
  have hcut : tokensFrom 0 (text.toList ++ '\n' :: more.toList) =
      (tokensFrom text.length ('\n' :: more.toList)).map (ts ++ ·) := by
    simpa [String.length_toList] using cuts_line h ('\n' :: more.toList) (by simp)
  have hline : tokensFrom text.length ('\n' :: more.toList) =
      (tokensFrom (text.length + 1) more.toList).map ([] ++ ·) :=
    cuts_blank (by decide) text.length more.toList fun _ _ => trivial
  rw [tokenize, tokenize, hlines, hcut, hline]
  have hshift := tokensFrom_shift (text.length + 1) 0 more.toList
  rw [Nat.add_zero] at hshift
  rw [hshift]
  cases tokensFrom 0 more.toList <;> rfl

/-! ## Programs that end with a period -/

/-- None of the tokens is a period. -/
def Periodless (ts : List Token) : Prop := ∀ t ∈ ts, ¬ (t.kind = .punct ∧ t.text = ".")

theorem Tree.periodless_tokens {s : Symbol} (d : Tree s) : Periodless d.tokens := by
  induction d <;> simp_all [Periodless, or_imp]

theorem HeadTree.periodless_tokens (d : HeadTree) : Periodless d.tokens := by
  obtain ⟨name, hname, p, args⟩ := d
  cases args with
  | none => simp [HeadTree.tokens, Periodless]
  | some args => simpa [HeadTree.tokens, Periodless] using args.periodless_tokens

theorem StatementTree.periodless_tokens (d : StatementTree) : Periodless d.tokens := by
  obtain ⟨left, relation⟩ := d
  refine List.forall_mem_append.mpr ⟨left.periodless_tokens, ?_⟩
  cases relation with
  | none => simp
  | some r =>
      refine List.forall_mem_cons.mpr ⟨fun h => ?_, r.right.periodless_tokens⟩
      rcases r.hkind with hkind | hkind <;> cases hkind.symm.trans h.1

theorem GoalTree.periodless_tokens (d : GoalTree) : Periodless d.tokens := by
  obtain ⟨negation, statement, _⟩ := d
  refine List.forall_mem_append.mpr ⟨?_, statement.periodless_tokens⟩
  cases negation <;> simp

theorem BodyTree.periodless_tokens (d : BodyTree) : Periodless d.tokens := by
  refine List.forall_mem_append.mpr ⟨d.first.periodless_tokens, fun t ht => ?_⟩
  obtain ⟨⟨p, g⟩, _, ht⟩ := List.mem_flatMap.mp ht
  rcases List.mem_cons.mp ht with rfl | ht
  · simp
  · exact g.periodless_tokens t ht

theorem ClauseTree.periodless_tokens (d : ClauseTree) : Periodless d.tokens := by
  cases d with
  | fact head => exact head.periodless_tokens
  | rule head neck body =>
      exact List.forall_mem_append.mpr
        ⟨head.periodless_tokens, List.forall_mem_cons.mpr ⟨by simp, body.periodless_tokens⟩⟩

/-- If a period is the last token of a program, every clause of it is ended by a period. -/
theorem ProgramTree.last_eq_none {d : ProgramTree} (hd : Proper (Start.program.tokens d))
    (hperiod : ∀ t ∈ (Start.program.tokens d).getLast?, t.text = ".") : d.last = none := by
  obtain ⟨ended, last⟩ := d
  cases last with
  | none => rfl
  | some c =>
      have hlast : (Start.program.tokens ⟨ended, some c⟩).getLast? =
          some (c.tokens.getLast c.tokens_ne_nil) := by
        simp [Start.program, List.getLast?_append, List.getLast?_eq_some_getLast c.tokens_ne_nil]
      have hmem : c.tokens.getLast c.tokens_ne_nil ∈ c.tokens := List.getLast_mem c.tokens_ne_nil
      have htext := hperiod _ hlast
      have hkind := (hd.right _ hmem).punct (by simp [htext])
      exact absurd ⟨hkind, htext⟩ (c.periodless_tokens _ hmem)

end Grammar

open Grammar

theorem Clause.exists_tree_of_parseProgram {text : String} {cs : List Clause}
    (h : Clause.parseProgram text = .ok cs) :
    ∃ d, tokenize text = .ok (Start.program.tokens d) ∧ Start.program.value d = some cs := by
  cases htext : tokenize text with
  | error e => simp [parseProgram, htext, bind, Except.bind] at h
  | ok ts =>
      have hreads := Clause.readsAll_parseProgram htext (proper_of_tokenize htext)
      rw [h] at hreads
      obtain ⟨d, rfl, hd⟩ := hreads
      exact ⟨d, rfl, hd⟩

/-- A program whose clauses are all ended by periods may be continued on a new line. -/
theorem Clause.parseProgram_append_line {text : String} {cs : List Clause}
    (h : Clause.parseProgram text = .ok cs)
    (hperiod : ∀ ts, tokenize text = .ok ts → ∀ t ∈ ts.getLast?, t.text = ".") (more : String) :
    Clause.parseProgram (text ++ "\n" ++ more) =
      ((Clause.parseProgram more).map (cs ++ ·)).mapError (Fault.shift (text.length + 1)) := by
  obtain ⟨⟨ended, last⟩, htext, hvalue⟩ := Clause.exists_tree_of_parseProgram h
  obtain rfl : last = none := ProgramTree.last_eq_none (proper_of_tokenize htext) (hperiod _ htext)
  have htokens := tokenize_append_line htext more
  cases hmore : tokenize more with
  | error e =>
      rw [hmore] at htokens
      rw [parseProgram, parseProgram, htokens, hmore]
      rfl
  | ok ts =>
      rw [hmore] at htokens
      obtain ⟨r, hr, hclauses⟩ := clauses_ended ended hvalue (proper_of_tokenize htokens)
        (text ++ "\n" ++ more).length _ (Nat.le_refl _)
      have hlength : (text ++ "\n" ++ more).length = text.length + 1 + more.length := by
        rw [String.length_append, String.length_append]
        rfl
      rw [List.length_map] at hr
      rw [parseProgram, parseProgram, htokens, hmore]
      simp only [bind, Except.bind, Except.map, Except.mapError]
      rw [hclauses, hlength, clauses_shift _ (proper_of_tokenize hmore) (Nat.le_refl _) hr]
      cases clauses ts.length more.length ts <;> rfl

end Clausal
