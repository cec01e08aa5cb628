import ProcLang.Proofs.OnDemand
import ProcLang.Proofs.Places

/-!
# Requests to one lexer

A lexer can be asked for the next token or for all that are left, in any order. It answers like a
stream of the tokens of its text (`Reader.respond`): each token is given once, the end token again
and again, and an unknown character is reported once. What holds behind one request
(`Lexer.Stands.respond`) holds behind any number of them (`Lexer.answers_requests`).
-/

namespace ProcLang

/-- A request to a lexer: for the next token, or for all that are left. -/
inductive Request where
  | one
  | all
  deriving DecidableEq, Repr

/-- What a request is answered with. -/
inductive Answer where
  | token (t : Token)
  | tokens (ts : List Token)
  | failure (e : ScanError)
  deriving DecidableEq, Repr

namespace Answer

def ofToken : Except ScanError Token → Answer
  | .ok t => .token t
  | .error e => .failure e

def ofTokens : Except ScanError (List Token) → Answer
  | .ok ts => .tokens ts
  | .error e => .failure e

end Answer

/-! ## Requests one after another -/

section Serve

variable {σ τ : Type} {respond : σ → Request → Answer × σ} {respond' : τ → Request → Answer × τ}

/-- The answers to requests one after another, and what is left behind the last one. -/
def serve (respond : σ → Request → Answer × σ) : σ → List Request → List Answer × σ
  | s, [] => ([], s)
  | s, r :: requests =>
    ((respond s r).1 :: (serve respond (respond s r).2 requests).1,
      (serve respond (respond s r).2 requests).2)

theorem serve_append (s : σ) (requests later : List Request) :
    (serve respond s (requests ++ later)).2 =
      (serve respond (serve respond s requests).2 later).2 := by
  induction requests generalizing s with
  | nil => rfl
  | cons r requests ih => exact ih _

/-- What answers every request alike answers any number of them alike. -/
theorem serve_alike {Alike : σ → τ → Prop}
    (step : ∀ s s' r, Alike s s' →
      (respond s r).1 = (respond' s' r).1 ∧ Alike (respond s r).2 (respond' s' r).2)
    {s : σ} {s' : τ} (h : Alike s s') (requests : List Request) :
    (serve respond s requests).1 = (serve respond' s' requests).1 ∧
      Alike (serve respond s requests).2 (serve respond' s' requests).2 := by
  induction requests generalizing s s' with
  | nil => exact ⟨rfl, h⟩
  | cons r requests ih =>
    obtain ⟨hanswer, hnext⟩ := step s s' r h
    obtain ⟨hanswers, hlast⟩ := ih hnext
    exact ⟨by rw [serve, serve, hanswer, hanswers], hlast⟩

end Serve

/-! ## Streams -/

/-- A reader of a stream of tokens: some of them are left, or its end has been given, or its
error. -/
inductive Reader where
  | reading (left : List Token)
  | ended
  | failed
  deriving DecidableEq, Repr

namespace Reader

/-- Behind the last element of a stream. -/
def behind : Except ScanError Token → Reader
  | .ok _ => ended
  | .error _ => failed

/-- A stream answers a request. Its last element is an end token, which is given again and again, or
an error, behind which there is nothing. -/
def respond (last : Except ScanError Token) : Reader → Request → Answer × Reader
  | reading (t :: left), .one => (.token t, reading left)
  | reading [], .one => (.ofToken last, behind last)
  | reading left, .all => (.ofTokens (last.map fun t => left ++ [t]), behind last)
  | ended, .one => (.ofToken last, ended)
  | ended, .all => (.ofTokens (last.map fun t => [t]), ended)
  | failed, _ => (.failure .spent, failed)

theorem respond_all (last : Except ScanError Token) (left : List Token) :
    (reading left).respond last .all =
      (.ofTokens (last.map fun t => left ++ [t]), behind last) := by
  cases left <;> rfl

end Reader

namespace Lexer

/-- A lexer answers a request. -/
def respond (l : Lexer) : Request → Answer × Lexer
  | .one => (.ofToken l.next.1, l.next.2)
  | .all => (.ofTokens l.readAll.1, l.readAll.2)

/-- What stands behind the tokens of a text that is left with a rest. -/
def ending (line : Nat) : List Char → Except ScanError Token
  | [] => .ok (.endOfInput line)
  | c :: _ => .error (.unknownCharacter c line)

variable {text read consumed rest : List Char} {l l' : Lexer} {t : Token} {left ts : List Token}
  {n : Nat} {p : Reader}

/-! ## What a lexer goes on to read -/

/-- The lexer has given the last element of its text, and it stands in front of the rest. -/
structure AtEnd (text consumed rest : List Char) (l : Lexer) : Prop where
  hasRead : HasRead text consumed l
  stopped : l.stopped ↔ rest ≠ []

/-- The tokens that a lexer goes on to read, up to the end of what can be read of the text. -/
inductive Leaves (text consumed rest : List Char) : Lexer → List Token → Prop
  | nil {l l' : Lexer} : l.next = (ending (1 + lineFeeds consumed) rest, l') →
    AtEnd text consumed rest l' → Leaves text consumed rest l []
  | cons {l l' : Lexer} {t : Token} {left : List Token} : l.next = (.ok t, l') →
    t.kind ≠ .endOfInput → Leaves text consumed rest l' left →
    Leaves text consumed rest l (t :: left)

/-- Every lexer goes on to read the tokens that its text falls into, by induction on what is left of
it. -/
theorem exists_leaves (h : HasRead text read l) (hready : l.stopped = false) :
    ∃ ts consumed rest, text = consumed ++ rest ∧ Munches read l.rest ts rest ∧
      Leaves text consumed rest l ts := by
  induction hlength : l.rest.length using Nat.strong_induction_on generalizing l read with
  | _ length ih =>
    subst hlength
    cases meets h hready with
    | @token gap t l' hsplit hgap hlongest hkind hline hnext hready' hread =>
      have hshort : l'.rest.length < l.rest.length :=
        (length_rest_next hnext).resolve_right fun hend => hkind.ne_endOfInput hend.2
      obtain ⟨ts, consumed, rest, htext, hmunches, hleaves⟩ := ih _ hshort hread hready' rfl
      have htoken : (⟨t.kind, String.ofList t.lexeme.toList,
          (1 + lineFeeds (read ++ gap) : Nat)⟩ : Token) = t := by
        rw [String.ofList_toList, ← hline]
      refine ⟨t :: ts, consumed, rest, htext, ?_, .cons hnext hkind.ne_endOfInput hleaves⟩
      rw [hsplit, ← htoken]
      simp only [String.toList_ofList]
      exact .token hgap hlongest hkind hmunches
    | @endOfInput gap l' hsplit hgap hnext hready' hread =>
      refine ⟨[], text, [], (List.append_nil text).symm, ?_, .nil hnext ⟨hread, ?_⟩⟩
      · rw [hsplit, ← List.append_nil gap]
        exact .done hgap fun p hp => not_isLexeme_of_prefix_nil hp
      · simp [hready']
    | @unknown gap more c l' hsplit hgap hno hnext hstopped hread =>
      refine ⟨[], read ++ gap, c :: more, ?_, ?_, .nil hnext ⟨hread, ?_⟩⟩
      · rw [List.append_assoc, ← hsplit, h.split]
      · rw [hsplit]
        exact .done hgap hno
      · simp [hstopped]

/-- All that is left is read at once. -/
theorem Leaves.readUpTo (h : Leaves text consumed rest l left) (hn : l.rest.length < n) :
    ∃ l', readUpTo n l =
        ((ending (1 + lineFeeds consumed) rest).map fun t => left ++ [t], l') ∧
      AtEnd text consumed rest l' := by
  obtain ⟨n, rfl⟩ := Nat.exists_eq_succ_of_ne_zero (Nat.ne_zero_of_lt hn)
  induction h generalizing n with
  | @nil l l' hnext hend =>
    refine ⟨l', ?_, hend⟩
    rw [Lexer.readUpTo, hnext]
    cases rest <;> rfl
  | @cons l l' t left hnext hk hleaves ih =>
    have hshort : l'.rest.length < n := by
      have hlt := (length_rest_next hnext).resolve_right fun hend => hk hend.2
      omega
    obtain ⟨n, rfl⟩ := Nat.exists_eq_succ_of_ne_zero (Nat.ne_zero_of_lt hshort)
    obtain ⟨l'', hread, hend⟩ := ih n hshort
    refine ⟨l'', ?_, hend⟩
    rw [Lexer.readUpTo, hnext]
    simp only [if_neg hk, hread]
    cases rest <;> rfl

/-! ## The place behind each request -/

/-- Where a lexer stands that has read so far in the tokens of its text: right behind the lexeme of
the last token it has given, at the end of the text, or at the character where no lexeme begins. -/
inductive Stands (text : List Char) (ts : List Token) (consumed rest : List Char) :
    Reader → Lexer → Prop
  | reading {taken left : List Token} {read : List Char} {l : Lexer} : taken ++ left = ts →
    HasRead text read l → l.stopped = false →
    (∀ t ∈ taken.getLast?, ∃ front, read = front ++ t.lexeme.toList ∧
      t.line = (1 + lineFeeds front : Nat)) →
    Leaves text consumed rest l left → Stands text ts consumed rest (.reading left) l
  | ended {l : Lexer} : rest = [] → HasRead text text l → l.stopped = false →
    Stands text ts consumed rest .ended l
  | failed {l : Lexer} : rest ≠ [] → HasRead text consumed l → l.stopped →
    Stands text ts consumed rest .failed l

theorem AtEnd.stands (h : AtEnd text consumed rest l) (htext : text = consumed ++ rest) :
    Stands text ts consumed rest (.behind (ending (1 + lineFeeds consumed) rest)) l := by
  cases rest with
  | nil =>
    obtain rfl : text = consumed := htext.trans (List.append_nil consumed)
    exact .ended rfl h.hasRead (Bool.eq_false_iff.mpr fun hstopped => h.stopped.mp hstopped rfl)
  | cons c more =>
    exact .failed (List.cons_ne_nil c more) h.hasRead (h.stopped.mpr (List.cons_ne_nil c more))

/-- At the end of its text a lexer gives the end token and stays where it is. -/
theorem HasRead.next_eq (h : HasRead text text l) (hready : l.stopped = false) :
    l.next = (.ok (.endOfInput (1 + lineFeeds text : Nat)), l) := by
  have hrest : l.rest = [] := List.append_right_eq_self.mp h.split
  rw [next_of_ready hready, skipGap_of_nil hrest, scan, hrest, h.line]

theorem next_of_stopped (h : l.stopped) : l.next = (.error .spent, l) := if_pos h

/-- A lexer answers a request like the stream of its tokens, and goes on to where this does. -/
theorem Stands.respond (htext : text = consumed ++ rest) (h : Stands text ts consumed rest p l)
    (r : Request) :
    (l.respond r).1 = (p.respond (ending (1 + lineFeeds consumed) rest) r).1 ∧
      Stands text ts consumed rest (p.respond (ending (1 + lineFeeds consumed) rest) r).2
        (l.respond r).2 := by
  cases h with
  | @reading taken left read _ hts hread hready hlast hleaves =>
    cases r with
    | one =>
      cases hleaves with
      | nil hnext hend =>
        rw [Lexer.respond, hnext]
        exact ⟨rfl, hend.stands htext⟩
      | @cons _ l' t left hnext hk hleaves =>
        rw [Lexer.respond, hnext]
        refine ⟨rfl, ?_⟩
        cases meets hread hready with
        | token _ _ _ _ hline hnext' hready' hread' =>
          cases hnext.symm.trans hnext'
          have hsplit : (taken ++ [t]) ++ left = ts := by rwa [List.append_assoc]
          refine .reading hsplit hread' hready' ?_ hleaves
          rw [List.getLast?_concat]
          rintro u ⟨⟩
          exact ⟨_, rfl, hline⟩
        | endOfInput _ _ hnext' =>
          cases hnext.symm.trans hnext'
          exact absurd rfl hk
        | unknown _ _ _ hnext' => cases hnext.symm.trans hnext'
    | all =>
      obtain ⟨l', hall, hend⟩ := hleaves.readUpTo (Nat.lt_succ_self l.rest.length)
      have hall : l.readAll = _ := hall
      rw [Lexer.respond, hall, Reader.respond_all]
      exact ⟨rfl, hend.stands htext⟩
  | ended hrest hread hready =>
    subst hrest
    obtain rfl : text = consumed := htext.trans (List.append_nil consumed)
    have hnext := hread.next_eq hready
    cases r with
    | one =>
      rw [Lexer.respond, hnext]
      exact ⟨rfl, .ended rfl hread hready⟩
    | all =>
      have hall : l.readAll = (.ok [.endOfInput (1 + lineFeeds text : Nat)], l) := by
        rw [readAll, readUpTo, hnext]
        rfl
      rw [Lexer.respond, hall]
      exact ⟨rfl, .ended rfl hread hready⟩
  | failed hrest hread hstopped =>
    have hnext := next_of_stopped hstopped
    cases r with
    | one =>
      rw [Lexer.respond, hnext]
      exact ⟨rfl, .failed hrest hread hstopped⟩
    | all =>
      have hall : l.readAll = (.error .spent, l) := by rw [readAll, readUpTo, hnext]
      rw [Lexer.respond, hall]
      exact ⟨rfl, .failed hrest hread hstopped⟩

/-! ## Positions -/

theorem HasRead.readUpTo (h : HasRead text read l) (n : Nat) :
    ∃ more, HasRead text (read ++ more) (readUpTo n l).2 := by
  induction n generalizing l read with
  | zero => exact ⟨[], by rwa [List.append_nil]⟩
  | succ n ih =>
    obtain ⟨more, hmore⟩ := h.next
    rw [Lexer.readUpTo]
    cases hnext : l.next with
    | mk result l' =>
      rw [hnext] at hmore
      cases result with
      | error e => exact ⟨more, hmore⟩
      | ok t =>
        obtain ⟨further, hfurther⟩ := ih hmore
        rw [List.append_assoc] at hfurther
        simp only
        split
        · exact ⟨more, hmore⟩
        · cases hread : Lexer.readUpTo n l' with
          | mk result l'' =>
            rw [hread] at hfurther
            cases result <;> exact ⟨_, hfurther⟩

/-- A lexer never goes back. -/
theorem HasRead.serve (h : HasRead text read l) (requests : List Request) :
    ∃ more, HasRead text (read ++ more) (serve Lexer.respond l requests).2 := by
  induction requests generalizing l read with
  | nil => exact ⟨[], by rwa [List.append_nil]⟩
  | cons r requests ih =>
    have hnext : ∃ more, HasRead text (read ++ more) (l.respond r).2 := by
      cases r with
      | one => exact h.next
      | all => exact h.readUpTo _
    obtain ⟨more, hmore⟩ := hnext
    obtain ⟨further, hfurther⟩ := ih hmore
    rw [List.append_assoc] at hfurther
    exact ⟨_, hfurther⟩

theorem HasRead.position_le_serve (h : HasRead text read l) (requests : List Request) :
    l.position ≤ (ProcLang.serve Lexer.respond l requests).2.position ∧
      (ProcLang.serve Lexer.respond l requests).2.position ≤ text.length := by
  obtain ⟨more, hmore⟩ := h.serve requests
  refine ⟨?_, hmore.position_le⟩
  rw [h.position, hmore.position, List.length_append]
  exact Nat.le_add_right _ _

/-- Any mixture of requests reads one stream: the tokens that the text falls into and behind them
the end token or the first character where no lexeme begins. The lexer answers as this stream does,
stands where the answers leave it, and its position never goes back or behind the text. -/
theorem answers_requests (source : String) : ∃ ts consumed rest,
    source.toList = consumed ++ rest ∧ Munches [] source.toList ts rest ∧
      tokenize source = verdict ts (1 + lineFeeds consumed) rest ∧
      ∀ requests,
        (serve Lexer.respond (ofText source) requests).1 =
          (serve (Reader.respond (ending (1 + lineFeeds consumed) rest)) (.reading ts)
            requests).1 ∧
        Stands source.toList ts consumed rest
          (serve (Reader.respond (ending (1 + lineFeeds consumed) rest)) (.reading ts)
            requests).2
          (serve Lexer.respond (ofText source) requests).2 ∧
        ∀ later,
          (serve Lexer.respond (ofText source) requests).2.position ≤
            (serve Lexer.respond (ofText source) (requests ++ later)).2.position ∧
          (serve Lexer.respond (ofText source) (requests ++ later)).2.position ≤
            source.toList.length := by
  have hstart := HasRead.ofText source
  obtain ⟨ts, consumed, rest, htext, hmunches, hleaves⟩ := exists_leaves hstart rfl
  refine ⟨ts, consumed, rest, htext, hmunches, ?_, fun requests => ?_⟩
  · obtain ⟨l', hall, -⟩ := hleaves.readUpTo (Nat.lt_succ_self _)
    rw [tokenize, readAll, hall]
    cases rest <;> rfl
  · have hstands : Stands source.toList ts consumed rest (.reading ts) (ofText source) :=
      .reading (List.nil_append ts) hstart rfl nofun hleaves
    obtain ⟨hanswers, hlast⟩ := serve_alike
      (fun l p r (h : Stands source.toList ts consumed rest p l) => h.respond htext r) hstands
      requests
    refine ⟨hanswers, hlast, fun later => ?_⟩
    obtain ⟨more, hmore⟩ := hstart.serve requests
    rw [serve_append]
    exact hmore.position_le_serve later

end Lexer

end ProcLang
