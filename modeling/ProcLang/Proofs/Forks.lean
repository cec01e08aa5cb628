import ProcLang.Proofs.Bounds

/-!
# Runs that part

Two runs whose sources begin with the same tokens do the same until they look at the first token that
may be different (`Level`). There they part. But a step that looks at tokens enters nothing into the
listing before it has taken one, so the two listings are the same as long as neither run has taken
that token (`Parted`).

`Careful` says of a step what must be known of it for that, with its grade: whether it works on
symbols and notes alone, or waits for tokens, or takes one whenever it succeeds.
-/

namespace ProcLang

/-- Whether the analysis has taken the offending token when it fails. -/
def Failure.isLate : Failure → Bool
  | .diagnostic (.duplicate _ _) | .fault (.numeral _) => true
  | _ => false

/-- The tokens before the offending one, the last one first. -/
def Failure.before (e : Failure) (s : State) : List Token :=
  if e.isLate then s.matched.tail else s.matched

theorem Failure.before_of_not_isLate {e : Failure} (h : e.isLate = false) (s : State) :
    e.before s = s.matched := if_neg (by simp [h])

theorem Failure.before_suffix (e : Failure) (s : State) : e.before s <:+ s.matched := by
  unfold before
  split
  · exact List.tail_suffix _
  · exact List.suffix_rfl

/-- Whether the entry tells that a scope is closed. -/
def Entry.isClosing : Entry → Bool
  | .snapshot _ | .scopeLeft _ _ => true
  | _ => false

namespace Analysis

variable {α β : Type} {P : Entry → Prop}

/-! ## How far a step goes -/

/-- The listing has got more entries, all of such a kind. -/
def Lengthens (P : Entry → Prop) (l l' : Array Entry) : Prop :=
  ∃ more, l'.toList = l.toList ++ more ∧ ∀ x ∈ more, P x

theorem Lengthens.refl (l : Array Entry) : Lengthens P l l :=
  ⟨[], (List.append_nil _).symm, fun _ h => absurd h List.not_mem_nil⟩

theorem Lengthens.trans {l₁ l₂ l₃ : Array Entry} (h : Lengthens P l₁ l₂) (h' : Lengthens P l₂ l₃) :
    Lengthens P l₁ l₃ := by
  obtain ⟨more, heq, hall⟩ := h
  obtain ⟨more', heq', hall'⟩ := h'
  exact ⟨more ++ more', by rw [heq', heq, List.append_assoc], List.forall_mem_append.mpr ⟨hall, hall'⟩⟩

theorem Lengthens.mono {Q : Entry → Prop} {l l' : Array Entry} (h : Lengthens P l l')
    (hPQ : ∀ x, P x → Q x) : Lengthens Q l l' := by
  obtain ⟨more, heq, hall⟩ := h
  exact ⟨more, heq, fun x hx => hPQ x (hall x hx)⟩

theorem Lengthens.push {l : Array Entry} {x : Entry} (h : P x) : Lengthens P l (l.push x) :=
  ⟨[x], Array.toList_push, List.forall_mem_singleton.mpr h⟩

/-- A listing that gets no entries stays as it is. -/
theorem Lengthens.eq_of_false {l l' : Array Entry} (h : Lengthens (fun _ => False) l l') : l' = l := by
  obtain ⟨more, heq, hall⟩ := h
  obtain rfl : more = [] := List.eq_nil_iff_forall_not_mem.mpr hall
  exact Array.toList_inj.mp (heq.trans (List.append_nil _))

/-- What is known of a step: it works on symbols and notes alone, or it enters nothing into the
listing before it has taken a token, or it also takes one whenever it succeeds, and does not look at
a further one. -/
inductive Grade where
  | notes
  | waits
  | takes
  deriving DecidableEq

/-- From the tokens `m` and the listing `l` on, more tokens have been taken and entries made. -/
structure Goes (P : Entry → Prop) (g : Grade) (m : List Token) (l : Array Entry) (m' : List Token)
    (l' : Array Entry) : Prop where
  matched : m <:+ m'
  listing : Lengthens P l l'
  still : g ≠ .notes → m' = m → l' = l

/-- How far the result of a step has gone. In a failure the offending token does not count. -/
def Beyond (P : Entry → Prop) (g : Grade) (m : List Token) (l : Array Entry) :
    EStateM.Result Failure State α → Prop
  | .ok _ s => Goes P g m l s.matched s.listing ∧ (g = .takes → s.matched ≠ m)
  | .error e s => Goes P g m l (e.before s) s.listing

/-- One step behind another: the grades of both, and that of the two together. -/
inductive Joins : Grade → Grade → Grade → Prop
  | notes : Joins .notes .notes .notes
  | waits : Joins .waits .waits .waits
  | takes : Joins .waits .takes .takes
  /-- Behind a token that was taken notes may be made. -/
  | noted : Joins .takes .notes .takes

theorem Joins.eq_notes_iff {g₁ g₂ g : Grade} (h : Joins g₁ g₂ g) : g₁ = .notes ↔ g = .notes := by
  cases h <;> decide

section Going

variable {g g₁ g₂ : Grade} {m m₁ m₂ : List Token} {l l₁ l₂ : Array Entry}

theorem Goes.refl (g : Grade) (m : List Token) (l : Array Entry) : Goes P g m l m l :=
  ⟨List.suffix_rfl, .refl l, fun _ _ => rfl⟩

/-- Without entries any number of tokens may have been taken. -/
theorem Goes.of_listing_eq (g : Grade) (hm : m <:+ m₁) (hl : l₁ = l) : Goes P g m l m₁ l₁ := by
  subst hl
  exact ⟨hm, .refl _, fun _ _ => rfl⟩

theorem Goes.waits (h : Goes P .takes m l m₁ l₁) : Goes P .waits m l m₁ l₁ :=
  ⟨h.matched, h.listing, fun _ => h.still (by decide)⟩

theorem Goes.mono {Q : Entry → Prop} (hPQ : ∀ x, P x → Q x) (h : Goes P g m l m₁ l₁) :
    Goes Q g m l m₁ l₁ := ⟨h.matched, h.listing.mono hPQ, h.still⟩

theorem suffix_antisymm (h : m <:+ m₁) (h' : m₁ <:+ m) : m₁ = m :=
  h'.eq_of_length (Nat.le_antisymm h'.length_le h.length_le)

theorem Goes.trans (h : Goes P g₁ m l m₁ l₁) (h' : Goes P g₂ m₁ l₁ m₂ l₂) (hj : Joins g₁ g₂ g)
    (htakes : g₁ = .takes → m₁ ≠ m) : Goes P g m l m₂ l₂ where
  matched := h.matched.trans h'.matched
  listing := h.listing.trans h'.listing
  still := by
    rintro hg rfl
    have hm : m₁ = m₂ := suffix_antisymm h.matched h'.matched
    cases hj with
    | notes => exact absurd rfl hg
    | waits | takes =>
      rw [h'.still (by decide) hm.symm, h.still (by decide) hm]
    | noted => exact absurd hm (htakes rfl)

theorem Beyond.waits {r : EStateM.Result Failure State α} (h : Beyond P .takes m l r) :
    Beyond P .waits m l r := by
  cases r with
  | ok a s => exact ⟨h.1.waits, nofun⟩
  | error e s => exact Goes.waits h

theorem Beyond.mono {Q : Entry → Prop} (hPQ : ∀ x, P x → Q x)
    {r : EStateM.Result Failure State α} (h : Beyond P g m l r) : Beyond Q g m l r := by
  cases r with
  | ok a s => exact ⟨h.1.mono hPQ, h.2⟩
  | error e s => exact Goes.mono hPQ h

theorem Beyond.bind {step : Analysis α} {f : α → Analysis β} {s : State} (hj : Joins g₁ g₂ g)
    (h : Beyond P g₁ m l (step s)) (hf : ∀ a s, Beyond P g₂ s.matched s.listing (f a s)) :
    Beyond P g m l ((step >>= f) s) := by
  cases hr : step s with
  | error e s₁ =>
    rw [hr] at h
    rw [bind_eq_of_error hr]
    exact ⟨h.matched, h.listing, fun hg => h.still (hj.eq_notes_iff.not.mpr hg)⟩
  | ok a s₁ =>
    rw [hr] at h
    obtain ⟨h, htakes⟩ := h
    rw [bind_eq_of_ok hr]
    have hf := hf a s₁
    cases hr' : f a s₁ with
    | error e s₂ =>
      rw [hr'] at hf
      exact h.trans hf hj htakes
    | ok b s₂ =>
      rw [hr'] at hf
      obtain ⟨h', htakes'⟩ := hf
      refine ⟨h.trans h' hj htakes, ?_⟩
      rintro rfl heq
      -- all that was taken was taken by one of the two steps
      have hm : s₁.matched = m := suffix_antisymm h.matched (heq ▸ h'.matched)
      cases hj with
      | takes => exact htakes' rfl (heq.trans hm.symm)
      | noted => exact htakes rfl hm

end Going

/-! ## Two runs -/

/-- The runs look at the same token, behind which both sources supply the same tokens up to the edge,
and one more. The edge is given by the tokens in front of it, the last one first. -/
def Below (edge : List Token) (s s' : State) : Prop :=
  ∃ rest c t t' last last', edge = rest.reverse ++ c :: s.matched ∧ s.current = some c ∧
    s'.current = some c ∧ s.source.Supplies (rest ++ [t]) last ∧ s'.source.Supplies (rest ++ [t']) last'

/-- The runs have taken the same tokens, up to the edge at most, and their states are alike. -/
structure Level (edge : List Token) (s s' : State) : Prop where
  eq : s' = { s with source := s'.source, current := s'.current }
  place : s.matched = edge ∨ Below edge s s'

/-- Two runs of a step are still level, or they have failed alike, or they have parted at the edge,
where both have the same listing. -/
inductive Parted (P : Entry → Prop) (g : Grade) (edge : List Token) :
    EStateM.Result Failure State α → EStateM.Result Failure State α → Prop
  | level {a : α} {s s' : State} : Level edge s s' → Parted P g edge (.ok a s) (.ok a s')
  | same {e : Failure} {s s' : State} : s'.listing = s.listing →
    Parted P g edge (.error e s) (.error e s')
  | apart {r r' : EStateM.Result Failure State α} {l : Array Entry} : g ≠ .notes →
    Beyond P g edge l r → Beyond P g edge l r' → Parted P g edge r r'

/-- The step goes as far as its grade says, and so do two runs of it that part. -/
structure Careful (P : Entry → Prop) (g : Grade) (step : Analysis α) : Prop where
  beyond : ∀ s, Beyond P g s.matched s.listing (step s)
  parted : ∀ edge s s', Level edge s s' → Parted P g edge (step s) (step s')

theorem Careful.ends {g : Grade} {step : Analysis α} (h : Careful P g step) (s : State) :
    Ends step s
      (fun _ s' => Goes P g s.matched s.listing s'.matched s'.listing ∧
        (g = .takes → s'.matched ≠ s.matched))
      fun e s' => Goes P g s.matched s.listing (e.before s') s'.listing := h.beyond s

/-- At the edge the runs may go apart in any way. -/
theorem Careful.of_below {g : Grade} {step : Analysis α} (hg : g ≠ .notes)
    (hb : ∀ s, Beyond P g s.matched s.listing (step s))
    (h : ∀ edge s s', Level edge s s' → Below edge s s' → Parted P g edge (step s) (step s')) :
    Careful P g step := by
  refine ⟨hb, fun edge s s' hl => ?_⟩
  rcases hl.place with rfl | hbelow
  · have hb' := hb s'
    rw [hl.eq] at hb' ⊢
    exact .apart hg (hb s) hb'
  · exact h edge s s' hl hbelow

namespace Careful

variable {g g₁ g₂ : Grade} {step : Analysis α} {f : α → Analysis β}

theorem join (hj : Joins g₁ g₂ g) (h : Careful P g₁ step) (hf : ∀ a, Careful P g₂ (f a)) :
    Careful P g (step >>= f) := by
  refine ⟨fun s => (h.beyond s).bind hj fun a => (hf a).beyond, fun edge s s' hl => ?_⟩
  have hp := h.parted edge s s' hl
  generalize hr : step s = r, hr' : step s' = r' at hp
  cases hp with
  | @level a s₁ s₁' hl₁ =>
    rw [bind_eq_of_ok hr, bind_eq_of_ok hr']
    have hp₁ := (hf a).parted edge s₁ s₁' hl₁
    cases hj with
    | noted =>
      generalize f a s₁ = r₁, f a s₁' = r₁' at hp₁
      cases hp₁ with
      | level hl₂ => exact .level hl₂
      | same heq => exact .same heq
      | apart hno => exact absurd rfl hno
    | _ => exact hp₁
  | same heq =>
    rw [bind_eq_of_error hr, bind_eq_of_error hr']
    exact .same heq
  | apart hg hb hb' =>
    exact .apart (hj.eq_notes_iff.not.mp hg)
      ((hr ▸ hb : Beyond P g₁ edge _ (step s)).bind hj fun a => (hf a).beyond)
      ((hr' ▸ hb' : Beyond P g₁ edge _ (step s')).bind hj fun a => (hf a).beyond)

theorem bind (h : Careful P .waits step) (hf : ∀ a, Careful P .waits (f a)) :
    Careful P .waits (step >>= f) := join .waits h hf

theorem bind_takes (h : Careful P .waits step) (hf : ∀ a, Careful P .takes (f a)) :
    Careful P .takes (step >>= f) := join .takes h hf

theorem bind_notes (h : Careful P .takes step) (hf : ∀ a, Careful P .notes (f a)) :
    Careful P .takes (step >>= f) := join .noted h hf

/-- More entries may be allowed, and another grade, if that is true of each result. -/
theorem imp {Q : Entry → Prop} {g' : Grade} (h : Careful P g step)
    (hg : g ≠ .notes → g' ≠ .notes)
    (hresult : ∀ {m l} {r : EStateM.Result Failure State α}, Beyond P g m l r → Beyond Q g' m l r) :
    Careful Q g' step := by
  refine ⟨fun s => hresult (h.beyond s), fun edge s s' hl => ?_⟩
  have hp := h.parted edge s s' hl
  generalize step s = r, step s' = r' at hp
  cases hp with
  | level hl₁ => exact .level hl₁
  | same heq => exact .same heq
  | apart hne hb hb' => exact .apart (hg hne) (hresult hb) (hresult hb')

theorem waits (h : Careful P .takes step) : Careful P .waits step :=
  h.imp (fun _ => by decide) Beyond.waits

theorem mono {Q : Entry → Prop} (h : Careful P g step) (hPQ : ∀ x, P x → Q x) :
    Careful Q g step := h.imp id (Beyond.mono hPQ)

theorem pure (hg : g ≠ .takes) (a : α) : Careful P g (pure a : Analysis α) :=
  ⟨fun s => ⟨.refl g s.matched s.listing, fun h => absurd h hg⟩, fun _ _ _ hl => .level hl⟩

theorem throw {e : Failure} (he : e.isLate = false) : Careful P g (throw e : Analysis α) := by
  refine ⟨fun s => ?_, fun edge s s' hl => .same ?_⟩
  · show Goes P g s.matched s.listing (e.before s) s.listing
    rw [Failure.before_of_not_isLate he]
    exact .refl g s.matched s.listing
  · rw [hl.eq]

theorem ite {p : Prop} [Decidable p] {step second : Analysis α} (h : Careful P g step)
    (h' : Careful P g second) : Careful P g (if p then step else second) := by
  split
  · exact h
  · exact h'

/-- The state may be read if its tokens do not count. -/
theorem get_bind {f : State → Analysis β}
    (hf : ∀ s source current, f { s with source := source, current := current } = f s)
    (h : ∀ s, Careful P g (f s)) : Careful P g (get >>= f) := by
  refine ⟨fun s => (h s).beyond s, fun edge s s' hl => ?_⟩
  have hsame : f s' = f s := by rw [hl.eq, hf]
  show Parted P g edge (f s s) (f s' s')
  rw [hsame]
  exact (h s).parted edge s s' hl

end Careful

/-! ## Tokens -/

theorem careful_currentToken (wanted : TokenPart) : Careful P .waits (currentToken wanted) := by
  refine .of_below (by decide) (fun s => ?_) fun edge s s' hl hbelow => ?_
  · cases ht : s.current with
    | some t =>
      rw [currentToken_eq ht]
      exact ⟨.refl _ _ _, nofun⟩
    | none =>
      exact (ends_currentToken_of_none ht).mpr (.refl _ _ _)
  · obtain ⟨_, c, _, _, _, _, -, hc, hc', -⟩ := hbelow
    rw [currentToken_eq hc, currentToken_eq hc']
    exact .level hl

theorem careful_reject (x : Expectation) : Careful P .takes (reject x : Analysis α) :=
  (careful_currentToken .kind).bind_takes fun _ => .throw rfl

theorem careful_atKind (kind : Kind) : Careful P .waits (atKind kind) :=
  (careful_currentToken .kind).bind fun _ => .pure (by decide) _

/-- What a step without a look at the tokens leaves of the tokens, whether it fails or not. -/
theorem Blind.ends_view {step : Analysis α} (h : Blind step) (s : State) :
    Ends step s (fun _ s' => s'.view = s.view) fun _ s' => s'.view = s.view := by
  have hview := h s s.view
  rw [State.withView_view] at hview
  unfold Ends
  cases hr : step s with
  | ok a s' =>
    rw [hr] at hview
    rw [(EStateM.Result.ok.inj hview).2]
    rfl
  | error e s' =>
    rw [hr] at hview
    rw [(EStateM.Result.error.inj hview).2]
    rfl

/-- Runs that are level stay so in a step that looks at no token. -/
theorem Blind.parted {step : Analysis α} {edge : List Token} {s s' : State} {g : Grade}
    (h : Blind step) (hl : Level edge s s') : Parted P g edge (step s) (step s') := by
  have hview : s' = s.withView s'.view := by
    rw [hl.eq]
    rfl
  have hstep := h s s'.view
  rw [← hview] at hstep
  have hends := h.ends_view s
  unfold Ends at hends
  cases hr : step s with
  | error e s₁ =>
    rw [hr] at hstep
    rw [hstep]
    exact .same rfl
  | ok a s₁ =>
    rw [hr] at hstep hends
    rw [hstep]
    obtain ⟨hsource, hcurrent, hmatched, htracing, hprinted⟩ :=
      View.mk.inj (show View.mk .. = View.mk .. from hends)
    refine .level ⟨?_, ?_⟩
    · rw [hl.eq]
      unfold State.withView State.view
      rw [← hmatched, ← htracing, ← hprinted]
    · show s₁.matched = edge ∨ _
      rw [hmatched]
      refine hl.place.imp_right ?_
      rintro ⟨rest, c, t, t', last, last', hedge, hc, hc', hs, hs'⟩
      exact ⟨rest, c, t, t', last, last', hmatched.symm ▸ hedge, hcurrent.trans hc, hc',
        hsource.symm ▸ hs, hs'⟩

/-- Runs that have not come to the edge take the same token. -/
theorem Level.exists_takes {edge : List Token} {s s' : State} (hl : Level edge s s')
    (h : Below edge s s') :
    ∃ c s₁ s₁', Takes c s s₁ ∧ Takes c s' s₁' ∧ Level edge s₁ s₁' := by
  obtain ⟨rest, c, t, t', last, last', rfl, hc, hc', hs, hs'⟩ := h
  cases rest with
  | nil =>
    obtain ⟨mid, hn, -⟩ := hs
    obtain ⟨mid', hn', -⟩ := hs'
    refine ⟨c, _, _, ⟨t, mid, hc, hn, rfl⟩, ⟨t', mid', hc', hn', rfl⟩, ?_, Or.inl rfl⟩
    rw [hl.eq]
  | cons x rest =>
    obtain ⟨mid, hn, hs⟩ := hs
    obtain ⟨mid', hn', hs'⟩ := hs'
    refine ⟨c, _, _, ⟨x, mid, hc, hn, rfl⟩, ⟨x, mid', hc', hn', rfl⟩, ?_, Or.inr ?_⟩
    · rw [hl.eq]
    · exact ⟨rest, x, t, t', last, last', by simp, rfl, rfl, hs, hs'⟩

theorem expect_eq_of_takes {kind : Kind} {t : Token} {s s' : State} (h : Takes t s s')
    (hk : t.kind = kind) : expect kind s = .ok () s' := by
  obtain ⟨u, source, ht, hn, rfl⟩ := h
  show (currentToken .kind >>= _) s = _
  rw [bind_eq_of_ok (currentToken_eq ht), if_pos hk]
  exact pull_eq_of_ok (s := { s with matched := t :: s.matched }) hn

section Checks

variable {check : Analysis α} (hb : Blind check)
  (hcheck : ∀ s, Ends check s (fun _ s' => s'.listing = s.listing) fun _ s' => s'.listing = s.listing)
include hb hcheck

theorem beyond_expect_then (kind : Kind) (s : State) :
    Beyond P .takes s.matched s.listing ((expect kind >>= fun _ => check) s) := by
  show Ends _ s (fun _ s' => Goes P .takes s.matched s.listing s'.matched s'.listing ∧ _)
    fun e s' => Goes P .takes s.matched s.listing (e.before s') s'.listing
  rw [ends_bind]
  cases ht : s.current with
  | none =>
    unfold expect
    rw [ends_bind, ends_currentToken_of_none ht]
    exact .refl _ _ _
  | some t =>
    refine (ends_expect (by rw [ht]; rfl)).mono ?_ ?_
    · rintro - s₁ ⟨t, -, u, source, -, -, rfl⟩
      -- the check leaves the token among those taken, whether it fails or not
      refine ((hcheck _).and (hb.ends_view _)).mono ?_ ?_
      · rintro a s₂ ⟨hlisting, hview⟩
        have hmatched : s₂.matched = t :: s.matched := congrArg View.matched hview
        rw [hmatched]
        exact ⟨.of_listing_eq _ (List.suffix_cons _ _) hlisting, fun _ => List.cons_ne_self _ _⟩
      · rintro e s₂ ⟨hlisting, hview⟩
        have hmatched : s₂.matched = t :: s.matched := congrArg View.matched hview
        refine .of_listing_eq _ ?_ hlisting
        rw [Failure.before, hmatched]
        split
        · exact List.suffix_rfl
        · exact List.suffix_cons _ _
    · rintro e s₁ (⟨u, err, -, ⟨source, -, -, rfl⟩, rfl⟩ | ⟨u, -, -, rfl, rfl⟩)
      · refine .of_listing_eq _ ?_ rfl
        rw [Failure.before_of_not_isLate (by cases err <;> rfl)]
        exact List.suffix_cons _ _
      · exact .refl _ _ _

/-- To take a token and to check it behind that. The check may fail because of the token. -/
theorem careful_expect_then (kind : Kind) :
    Careful P .takes (expect kind >>= fun _ => check) := by
  refine .of_below (by decide) (beyond_expect_then hb hcheck kind) fun edge s s' hl hbelow => ?_
  obtain ⟨c, s₁, s₁', htakes, htakes', hl₁⟩ := hl.exists_takes hbelow
  by_cases hk : c.kind = kind
  · rw [bind_eq_of_ok (expect_eq_of_takes htakes hk), bind_eq_of_ok (expect_eq_of_takes htakes' hk)]
    exact hb.parted hl₁
  · obtain ⟨-, -, hc, -⟩ := htakes
    obtain ⟨-, -, hc', -⟩ := htakes'
    rw [bind_eq_of_error (expect_eq_of_ne hc hk), bind_eq_of_error (expect_eq_of_ne hc' hk)]
    refine .same ?_
    rw [hl.eq]

end Checks

theorem careful_expect (kind : Kind) : Careful P .takes (expect kind) := by
  have h : Careful P .takes (expect kind >>= fun _ => pure ()) :=
    careful_expect_then (.pure ()) (fun _ => rfl) kind
  rwa [bind_pure_unit] at h

/-! ## Loops -/

section Loops

variable {g : Grade} {step item : Analysis Unit} {kind : Kind}

theorem Careful.bounded {f : Nat → Analysis α} (hf : Settled f) (h : ∀ n, Careful P g (f n)) :
    Careful P g (bounded f) := by
  refine ⟨fun s => (h _).beyond s, fun edge s s' hl => ?_⟩
  have hn := Nat.le_max_left (s.source.bound + 1) (s'.source.bound + 1)
  have hn' := Nat.le_max_right (s.source.bound + 1) (s'.source.bound + 1)
  rw [hf.bounded_eq hn, hf.bounded_eq hn']
  exact (h _).parted edge s s' hl

theorem Careful.repeatUpTo (h : Careful P .waits step) (n : Nat) :
    Careful P .waits (repeatUpTo kind step n) := by
  induction n with
  | zero => exact .pure (by decide) _
  | succ n ih =>
    exact (careful_atKind kind).bind fun _ => .ite (h.bind fun _ => ih) (.pure (by decide) _)

theorem Careful.whileKind (hkind : kind ≠ .endOfInput) (h : Careful P .waits step)
    (hspends : Spends 1 step) : Careful P .waits (whileKind kind step) :=
  (careful_atKind kind).bind fun _ =>
    .ite (.bounded (settled_repeatUpTo hkind hspends) h.repeatUpTo) (.pure (by decide) _)

theorem Careful.separatedBy (hkind : kind ≠ .endOfInput) (h : Careful P .waits item)
    (hspends : Spends 0 item) : Careful P .waits (separatedBy kind item) :=
  h.bind fun _ => .whileKind hkind ((careful_expect kind).waits.bind fun _ => h)
    ((spends_expect hkind).bind fun _ => hspends)

end Loops

/-! ## Steps that make entries -/

/-- The step makes only such entries, and no token that it has taken is the reason if it fails. -/
def Enters (P : Entry → Prop) (step : Analysis α) : Prop :=
  ∀ s, Ends step s (fun _ s' => Lengthens P s.listing s'.listing)
    fun e s' => e.isLate = false ∧ Lengthens P s.listing s'.listing

namespace Enters

variable {step : Analysis α} {f : α → Analysis β}

theorem pure (a : α) : Enters P (pure a : Analysis α) := fun s => .refl s.listing

theorem throw {e : Failure} (he : e.isLate = false) : Enters P (throw e : Analysis α) :=
  fun s => ⟨he, .refl s.listing⟩

theorem bind (h : Enters P step) (hf : ∀ a, Enters P (f a)) : Enters P (step >>= f) := by
  refine fun s => (h s).bind (fun a s₁ h₁ => ?_) fun _ _ h => h
  exact (hf a s₁).mono (fun _ _ => h₁.trans) fun _ _ h₂ => ⟨h₂.1, h₁.trans h₂.2⟩

theorem get_bind {f : State → Analysis β} (h : ∀ s, Enters P (f s)) : Enters P (get >>= f) :=
  fun s => h s s

theorem modify {f : State → State} (h : ∀ s, (f s).listing = s.listing) :
    Enters P (modify f) := fun s => by
  show Lengthens P s.listing (f s).listing
  rw [h]
  exact .refl s.listing

theorem ite {p : Prop} [Decidable p] {step second : Analysis α} (h : Enters P step)
    (h' : Enters P second) : Enters P (if p then step else second) := by
  split
  · exact h
  · exact h'

theorem forM {each : α → Analysis Unit} (h : ∀ x, Enters P (each x)) (xs : List α) :
    Enters P (xs.forM each) := by
  induction xs with
  | nil => exact pure _
  | cons x rest ih => exact (h x).bind fun _ => ih

theorem foldlM {each : β → α → Analysis β} (h : ∀ b x, Enters P (each b x)) (xs : List α) (b : β) :
    Enters P (xs.foldlM each b) := by
  induction xs generalizing b with
  | nil => exact pure _
  | cons x rest ih =>
    rw [List.foldlM_cons]
    exact (h b x).bind fun b' => ih b'

/-- Without a look at the tokens no other ones have been taken. -/
theorem ends (h : Enters P step) (hb : Blind step) (s : State) :
    Ends step s (fun _ s' => s'.matched = s.matched ∧ Lengthens P s.listing s'.listing)
      fun e s' => e.before s' = s.matched ∧ Lengthens P s.listing s'.listing := by
  refine ((h s).and (hb.ends_view s)).mono ?_ ?_
  · rintro a s' ⟨hlisting, hview⟩
    exact ⟨congrArg View.matched hview, hlisting⟩
  · rintro e s' ⟨⟨hlate, hlisting⟩, hview⟩
    refine ⟨?_, hlisting⟩
    rw [Failure.before_of_not_isLate hlate]
    exact congrArg View.matched hview

end Enters

/-- A step that makes notes. -/
theorem Careful.of_enters {step : Analysis α} (h : Enters P step) (hb : Blind step) :
    Careful P .notes step := by
  have hnotes : ∀ {m m' l l'}, m' = m ∧ Lengthens P l l' → Goes P .notes m l m' l' := by
    rintro m _ l l' ⟨rfl, hlisting⟩
    exact ⟨List.suffix_rfl, hlisting, fun hno => absurd rfl hno⟩
  refine ⟨fun s => ?_, fun edge s s' hl => hb.parted hl⟩
  exact (h.ends hb s).mono (fun _ _ h => ⟨hnotes h, nofun⟩) fun _ _ => hnotes

/-- A step that makes none. -/
theorem Careful.of_no_entry {step : Analysis α} (h : Enters (fun _ => False) step) (hb : Blind step) :
    Careful P .waits step := by
  have hnone : ∀ {m m' l l'}, m' = m ∧ Lengthens (fun _ => False) l l' → Goes P .waits m l m' l' := by
    rintro m _ l l' ⟨rfl, hlisting⟩
    exact .of_listing_eq _ List.suffix_rfl hlisting.eq_of_false
  refine ⟨fun s => ?_, fun edge s s' hl => hb.parted hl⟩
  exact (h.ends hb s).mono (fun _ _ h => ⟨hnone h, nofun⟩) fun _ _ => hnone

end Analysis

end ProcLang
