import ProcLang.Proofs.ProgramTree

/-!
# The grammar is unambiguous

Tokens are those of one procedure at most (`Procedure.eq_of_spells`). What stands at the beginning
of tokens is settled by the kinds of the next one and, where one part can be followed by another of
the same sort, of the one behind it.
-/

namespace ProcLang

/-! ## Beginnings -/

/-- The kind of the tokens that stand for a terminal. -/
def Terminal.toKind : Terminal → Kind
  | kind k => k
  | word k _ => k

theorem Terminal.Matches.kind_eq {w : Terminal} {t : Token} (h : w.Matches t) :
    t.kind = w.toKind := by
  cases w with
  | kind => exact h
  | word => exact h.1

/-- The tokens begin with ones that stand for the terminals, and the others are left. -/
def Leaves (ts : List Token) (ws : List Terminal) (left : List Token) : Prop :=
  ∃ us, ts = us ++ left ∧ Spells us ws

/-- The first token is of none of the kinds. -/
def Avoids (ks : List Kind) (ts : List Token) : Prop := ∀ t ∈ ts.head?, t.kind ∉ ks

section Beginnings

variable {ts us vs left left' : List Token} {ws ws' : List Terminal} {w w' : Terminal} {t : Token}
  {ks ks' : List Kind}

theorem leaves_nothing : Leaves ts ws [] ↔ Spells ts ws := by
  constructor
  · rintro ⟨us, rfl, h⟩
    rwa [List.append_nil]
  · exact fun h => ⟨ts, (List.append_nil ts).symm, h⟩

theorem leaves_nil : Leaves ts [] left ↔ ts = left := by
  constructor
  · rintro ⟨us, rfl, h⟩
    rw [spells_nil.mp h, List.nil_append]
  · rintro rfl
    exact ⟨[], rfl, spells_nil.mpr rfl⟩

theorem leaves_append :
    Leaves ts (ws ++ ws') left ↔ ∃ mid, Leaves ts ws mid ∧ Leaves mid ws' left := by
  constructor
  · rintro ⟨_, rfl, h⟩
    obtain ⟨us, vs, rfl, hus, hvs⟩ := spells_append.mp h
    exact ⟨vs ++ left, ⟨us, List.append_assoc .., hus⟩, vs, rfl, hvs⟩
  · rintro ⟨_, ⟨us, rfl, hus⟩, vs, rfl, hvs⟩
    exact ⟨us ++ vs, (List.append_assoc ..).symm, hus.append hvs⟩

theorem leaves_cons :
    Leaves ts (w :: ws) left ↔ ∃ t us, ts = t :: us ∧ w.Matches t ∧ Leaves us ws left := by
  constructor
  · rintro ⟨_, rfl, h⟩
    obtain ⟨t, us, rfl, ht, hus⟩ := spells_cons.mp h
    exact ⟨t, us ++ left, rfl, ht, us, rfl, hus⟩
  · rintro ⟨t, _, rfl, ht, us, rfl, hus⟩
    exact ⟨t :: us, rfl, spells_cons.mpr ⟨t, us, rfl, ht, hus⟩⟩

namespace Leaves

/-- What the same terminals leave of the same tokens is the same. -/
theorem unique (h : Leaves ts ws left) (h' : Leaves ts ws left') : left = left' := by
  obtain ⟨us, rfl, hus⟩ := h
  obtain ⟨us', heq, hus'⟩ := h'
  exact (List.append_inj heq (hus.length_eq.symm.trans hus'.length_eq)).2

/-- One token stands for the first terminals of both. -/
theorem exists_first (h : Leaves ts (w :: ws) left) (h' : Leaves ts (w' :: ws') left') :
    ∃ t us, ts = t :: us ∧ w.Matches t ∧ w'.Matches t ∧ Leaves us ws left ∧
      Leaves us ws' left' := by
  obtain ⟨t, us, rfl, ht, hus⟩ := leaves_cons.mp h
  obtain ⟨_, _, heq, ht', hus'⟩ := leaves_cons.mp h'
  cases heq
  exact ⟨t, us, rfl, ht, ht', hus, hus'⟩

theorem toKind_eq (h : Leaves ts (w :: ws) left) (h' : Leaves ts (w' :: ws') left') :
    w.toKind = w'.toKind := by
  obtain ⟨_, _, _, ht, ht', _⟩ := h.exists_first h'
  exact ht.kind_eq.symm.trans ht'.kind_eq

theorem tail (h : Leaves ts (w :: ws) left) (h' : Leaves ts (w :: ws') left') :
    ∃ us, Leaves us ws left ∧ Leaves us ws' left' := by
  obtain ⟨_, us, _, _, _, hus, hus'⟩ := h.exists_first h'
  exact ⟨us, hus, hus'⟩

/-- Names are read with their spelling. -/
theorem tail_of_word {k k' : Kind} {y y' : String} (h : Leaves ts (.word k y :: ws) left)
    (h' : Leaves ts (.word k' y' :: ws') left') :
    y = y' ∧ ∃ us, Leaves us ws left ∧ Leaves us ws' left' := by
  obtain ⟨_, us, _, ht, ht', hus, hus'⟩ := h.exists_first h'
  exact ⟨ht.2.symm.trans ht'.2, us, hus, hus'⟩

theorem avoids (h : Leaves ts (w :: ws) left) (hw : w.toKind ∉ ks) : Avoids ks ts := by
  obtain ⟨t, us, rfl, ht, -⟩ := leaves_cons.mp h
  rintro _ ⟨⟩
  rwa [ht.kind_eq]

theorem not_avoids (h : Leaves ts (w :: ws) left) (hw : w.toKind ∈ ks) : ¬ Avoids ks ts := by
  obtain ⟨t, us, rfl, ht, -⟩ := leaves_cons.mp h
  exact fun hno => hno t rfl (ht.kind_eq ▸ hw)

end Leaves

theorem Avoids.mono (h : Avoids ks ts) (hks : ks' ⊆ ks) : Avoids ks' ts :=
  fun t ht hk => h t ht (hks hk)

theorem avoids_nil : Avoids [] ts := fun _ _ => List.not_mem_nil

end Beginnings

/-! ## Unambiguous terminals -/

/-- What begins as `a` begins as nothing else, and `a` ends there in one place only, if no token of
the kinds follows. -/
def Unambiguous {α : Type} (ks : List Kind) (terminals : α → List Terminal) (a : α) : Prop :=
  ∀ b ts left left', Leaves ts (terminals a) left → Leaves ts (terminals b) left' →
    Avoids ks left → Avoids ks left' → a = b ∧ left = left'

namespace Unambiguous

variable {α : Type} {terminals : α → List Terminal} {a b : α} {as bs : List α} {k : Kind}
  {ts left left' : List Token} {ws ws' : List Terminal}

/-- Where nothing that follows matters. -/
theorem eq (h : Unambiguous [] terminals a) (ha : Leaves ts (terminals a) left)
    (hb : Leaves ts (terminals b) left') : a = b ∧ left = left' :=
  h b ts left left' ha hb avoids_nil avoids_nil

theorem cons (w : Terminal) (h : Unambiguous [] terminals a) :
    Unambiguous [] (fun a => w :: terminals a) a := by
  intro b ts left left' ha hb _ _
  obtain ⟨us, ha, hb⟩ := Leaves.tail ha hb
  exact h.eq ha hb

theorem append (h : Unambiguous [] terminals a) (ws : List Terminal) :
    Unambiguous [] (fun a => terminals a ++ ws) a := by
  intro b ts left left' ha hb _ _
  obtain ⟨mid, ha, hws⟩ := leaves_append.mp ha
  obtain ⟨mid', hb, hws'⟩ := leaves_append.mp hb
  obtain ⟨rfl, rfl⟩ := h.eq ha hb
  exact ⟨rfl, hws.unique hws'⟩

/-- Things that begin with a token of one kind can stand one behind the other until a token of
another kind comes. -/
theorem flatMap (hstart : ∀ a, ∃ w ws, terminals a = w :: ws ∧ w.toKind = k)
    (h : ∀ a ∈ as, Unambiguous [] terminals a) :
    Unambiguous [k] (fun as => as.flatMap terminals) as := by
  induction as with
  | nil =>
    intro bs ts left left' ha hb hleft _
    cases leaves_nil.mp ha
    cases bs with
    | nil => exact ⟨rfl, leaves_nil.mp hb⟩
    | cons b bs =>
      obtain ⟨w, ws, heq, hk⟩ := hstart b
      simp only [List.flatMap_cons, heq, List.cons_append] at hb
      exact absurd hleft (hb.not_avoids (by simp [hk]))
  | cons a as ih =>
    intro bs ts left left' ha hb hleft hleft'
    obtain ⟨hfirst, hrest⟩ := List.forall_mem_cons.mp h
    cases bs with
    | nil =>
      cases leaves_nil.mp hb
      obtain ⟨w, ws, heq, hk⟩ := hstart a
      simp only [List.flatMap_cons, heq, List.cons_append] at ha
      exact absurd hleft' (ha.not_avoids (by simp [hk]))
    | cons b bs =>
      obtain ⟨mid, ha, has⟩ := leaves_append.mp ha
      obtain ⟨mid', hb, hbs⟩ := leaves_append.mp hb
      obtain ⟨rfl, rfl⟩ := hfirst.eq ha hb
      obtain ⟨rfl, rfl⟩ := ih hrest bs mid left left' has hbs hleft hleft'
      exact ⟨rfl, rfl⟩

/-- What stands one behind the other begins with the one kind, or with what comes then. -/
theorem avoids_flatMap {ks : List Kind} {w : Terminal}
    (hstart : ∀ a, ∃ w ws, terminals a = w :: ws ∧ w.toKind = k)
    (h : Leaves ts (as.flatMap terminals ++ w :: ws) left) (hk : k ∉ ks) (hw : w.toKind ∉ ks) :
    Avoids ks ts := by
  cases as with
  | nil => exact h.avoids hw
  | cons a as =>
    obtain ⟨w', ws', heq, hk'⟩ := hstart a
    simp only [List.flatMap_cons, heq, List.cons_append] at h
    exact h.avoids (hk' ▸ hk)

end Unambiguous

/-! ## Expressions -/

/-- The kinds of the operators that can continue an expression of a level. -/
def Level.operators : Level → List Kind
  | factor => []
  | chain .multiplicative => [.multiplicative]
  | chain .additive => [.multiplicative, .additive]

namespace Operator

variable {op : Operator}

theorem kind_mem : op.kind ∈ (Level.chain op).operators := by
  cases op <;> decide

theorem kind_not_mem_below : op.kind ∉ op.below.operators := by
  cases op <;> decide

theorem below_subset : op.below.operators ⊆ (Level.chain op).operators := by
  cases op <;> decide

end Operator

namespace Expr

variable {op : Operator} {ts left : List Token}

/-- What stands between operators ends where no operator follows that could continue it. -/
theorem exists_of_leaves {e : Expr (.chain op)} (h : Leaves ts e.terminals left)
    (hleft : Avoids (Level.chain op).operators left) :
    ∃ (first : Expr op.below) (mid : List Token), Leaves ts first.terminals mid ∧
      Avoids op.below.operators mid ∧ (e = last first ∧ mid = left ∨
        ∃ rest, e = more first rest ∧ Leaves mid (.kind op.kind :: rest.terminals) left) := by
  cases e with
  | last first => exact ⟨first, left, h, hleft.mono Operator.below_subset, Or.inl ⟨rfl, rfl⟩⟩
  | more first rest =>
    obtain ⟨mid, hfirst, hrest⟩ := leaves_append.mp h
    exact ⟨first, mid, hfirst, hrest.avoids Operator.kind_not_mem_below,
      Or.inr ⟨rest, rfl, hrest⟩⟩

/-- By induction on the expression. -/
theorem unambiguous {l : Level} (e : Expr l) : Unambiguous l.operators terminals e := by
  induction e with
  | name y =>
    intro b ts left left' h h' _ _
    cases b with
    | name z =>
      obtain ⟨rfl, us, hus, hus'⟩ := Leaves.tail_of_word h h'
      exact ⟨rfl, hus.unique hus'⟩
    | _ => exact absurd (Leaves.toKind_eq h h') nofun
  | number =>
    intro b ts left left' h h' _ _
    cases b with
    | number => exact ⟨rfl, h.unique h'⟩
    | _ => exact absurd (Leaves.toKind_eq h h') nofun
  | parens e ih =>
    intro b ts left left' h h' _ _
    cases b with
    | parens e' =>
      obtain ⟨us, h, h'⟩ := Leaves.tail h h'
      obtain ⟨mid, h, hclose⟩ := leaves_append.mp h
      obtain ⟨mid', h', hclose'⟩ := leaves_append.mp h'
      obtain ⟨rfl, rfl⟩ := ih e' us mid mid' h h' (hclose.avoids (by decide))
        (hclose'.avoids (by decide))
      exact ⟨rfl, hclose.unique hclose'⟩
    | _ => exact absurd (Leaves.toKind_eq h h') nofun
  | not f ih =>
    intro b ts left left' h h' _ _
    cases b with
    | not f' =>
      obtain ⟨us, h, h'⟩ := Leaves.tail h h'
      obtain ⟨rfl, rfl⟩ := ih.eq h h'
      exact ⟨rfl, rfl⟩
    | _ => exact absurd (Leaves.toKind_eq h h') nofun
  | minus f ih =>
    intro b ts left left' h h' _ _
    cases b with
    | minus f' =>
      obtain ⟨us, h, h'⟩ := Leaves.tail h h'
      obtain ⟨rfl, rfl⟩ := ih.eq h h'
      exact ⟨rfl, rfl⟩
    | _ => exact absurd (Leaves.toKind_eq h h') nofun
  | @last op first ih =>
    intro b ts left left' h h' hleft hleft'
    obtain ⟨first', mid', hfirst', hmid', hcases⟩ := exists_of_leaves h' hleft'
    obtain ⟨rfl, rfl⟩ := ih first' ts left mid' h hfirst' (hleft.mono Operator.below_subset) hmid'
    rcases hcases with ⟨rfl, rfl⟩ | ⟨rest', -, hrest'⟩
    · exact ⟨rfl, rfl⟩
    · exact absurd hleft (hrest'.not_avoids Operator.kind_mem)
  | @more op first rest ih ihrest =>
    intro b ts left left' h h' hleft hleft'
    obtain ⟨mid, hfirst, hrest⟩ := leaves_append.mp h
    obtain ⟨first', mid', hfirst', hmid', hcases⟩ := exists_of_leaves h' hleft'
    obtain ⟨rfl, rfl⟩ := ih first' ts mid mid' hfirst hfirst'
      (hrest.avoids Operator.kind_not_mem_below) hmid'
    rcases hcases with ⟨-, rfl⟩ | ⟨rest', rfl, hrest'⟩
    · exact absurd hleft' (hrest.not_avoids Operator.kind_mem)
    · obtain ⟨us, hrest, hrest'⟩ := hrest.tail hrest'
      obtain ⟨rfl, rfl⟩ := ihrest rest' us left left' hrest hrest' hleft hleft'
      exact ⟨rfl, rfl⟩

end Expr

theorem Assignment.unambiguous (a : Assignment) : Unambiguous [] terminals a := by
  rintro ⟨target', value'⟩ ts left left' h h' _ _
  obtain ⟨target, value⟩ := a
  obtain ⟨rfl, us, h, h'⟩ := Leaves.tail_of_word h h'
  obtain ⟨us, h, h'⟩ := h.tail h'
  obtain ⟨mid, h, hend⟩ := leaves_append.mp h
  obtain ⟨mid', h', hend'⟩ := leaves_append.mp h'
  obtain ⟨rfl, rfl⟩ := value.unambiguous value' us mid mid' h h' (hend.avoids (by decide))
    (hend'.avoids (by decide))
  exact ⟨rfl, hend.unique hend'⟩

/-! ## Declarations -/

theorem Mark.unambiguous (m : Mark) : Unambiguous [] terminals m := by
  intro m' ts left left' h h' _ _
  cases m with
  | constant numeral =>
    cases m' with
    | constant numeral' =>
      obtain ⟨us, h, h'⟩ := Leaves.tail h h'
      obtain ⟨us, h, h'⟩ := h.tail h'
      obtain ⟨rfl, us, h, h'⟩ := h.tail_of_word h'
      exact ⟨rfl, h.unique h'⟩
    | _ => exact absurd (Leaves.toKind_eq h h') nofun
  | _ =>
    cases m' <;> first
      | exact ⟨rfl, Leaves.unique h h'⟩
      | exact absurd (Leaves.toKind_eq h h') nofun

/-- A name behind a comma. -/
theorem unambiguous_furtherName (y : String) :
    Unambiguous [] (fun y => [.kind .comma, .name y]) y := by
  intro z ts left left' h h' _ _
  obtain ⟨us, h, h'⟩ := Leaves.tail h h'
  obtain ⟨rfl, us, h, h'⟩ := Leaves.tail_of_word h h'
  exact ⟨rfl, leaves_nil.mp h ▸ leaves_nil.mp h'⟩

theorem Group.unambiguous (g : Group) : Unambiguous [] terminals g := by
  rintro ⟨first', more', mark'⟩ ts left left' h h' _ _
  obtain ⟨first, more, mark⟩ := g
  obtain ⟨rfl, us, h, h'⟩ := Leaves.tail_of_word h h'
  obtain ⟨mid, h, hmark⟩ := leaves_append.mp h
  obtain ⟨mid', h', hmark'⟩ := leaves_append.mp h'
  obtain ⟨rfl, rfl⟩ := Unambiguous.flatMap (k := .comma) (fun _ => ⟨_, _, rfl, rfl⟩)
    (fun y _ => unambiguous_furtherName y) more' us mid mid' h h' (hmark.avoids (by decide))
    (hmark'.avoids (by decide))
  obtain ⟨us, hmark, hmark'⟩ := hmark.tail hmark'
  obtain ⟨rfl, rfl⟩ := mark.unambiguous.eq hmark hmark'
  exact ⟨rfl, rfl⟩

theorem Mode.kind_injective : Function.Injective Mode.kind := by
  intro m m' h
  cases m <;> cases m' <;> first | rfl | cases h

theorem ParameterGroup.unambiguous (g : ParameterGroup) : Unambiguous [] terminals g := by
  rintro ⟨g', mode?'⟩ ts left left' h h' _ _
  obtain ⟨g, mode?⟩ := g
  cases mode? with
  | none =>
    cases mode?' with
    | none =>
      obtain ⟨rfl, rfl⟩ := g.unambiguous.eq h h'
      exact ⟨rfl, rfl⟩
    | some m' => exact absurd (Leaves.toKind_eq h h') (by cases m' <;> nofun)
  | some m =>
    cases mode?' with
    | none => exact absurd (Leaves.toKind_eq h h') (by cases m <;> nofun)
    | some m' =>
      obtain rfl := Mode.kind_injective (Leaves.toKind_eq h h')
      obtain ⟨us, h, h'⟩ := Leaves.tail h h'
      obtain ⟨rfl, rfl⟩ := g.unambiguous.eq h h'
      exact ⟨rfl, rfl⟩

theorem unambiguous_parameterTerminals (gs : List ParameterGroup) :
    Unambiguous [.leftParen] parameterTerminals gs := by
  intro gs' ts left left' h h' hleft hleft'
  cases gs with
  | nil =>
    cases leaves_nil.mp h
    cases gs' with
    | nil => exact ⟨rfl, leaves_nil.mp h'⟩
    | cons g' more' => exact absurd hleft (Leaves.not_avoids h' (by decide))
  | cons g more =>
    cases gs' with
    | nil =>
      cases leaves_nil.mp h'
      exact absurd hleft' (Leaves.not_avoids h (by decide))
    | cons g' more' =>
      obtain ⟨us, h, h'⟩ := Leaves.tail h h'
      obtain ⟨mid₂, h, hclose⟩ := leaves_append.mp h
      obtain ⟨mid₂', h', hclose'⟩ := leaves_append.mp h'
      obtain ⟨mid₁, h, hmore⟩ := leaves_append.mp h
      obtain ⟨mid₁', h', hmore'⟩ := leaves_append.mp h'
      obtain ⟨rfl, rfl⟩ := g.unambiguous.eq h h'
      obtain ⟨rfl, rfl⟩ := Unambiguous.flatMap (k := .semicolon) (fun _ => ⟨_, _, rfl, rfl⟩)
        (fun g _ => g.unambiguous.cons _) more' mid₁ mid₂ mid₂' hmore hmore'
        (hclose.avoids (by decide)) (hclose'.avoids (by decide))
      exact ⟨rfl, hclose.unique hclose'⟩

/-! ## Procedures -/

namespace Procedure

theorem unambiguous_inner {locals locals' : List Group} {nested nested' : List Procedure}
    {body body' : List Assignment} {closing closing' : String} {ts left left' : List Token}
    (hnested : ∀ q ∈ nested, Unambiguous [] terminals q)
    (h : Leaves ts (innerTerminals locals nested body closing) left)
    (h' : Leaves ts (innerTerminals locals' nested' body' closing') left') :
    locals = locals' ∧ nested = nested' ∧ body = body' ∧ closing = closing' ∧ left = left' := by
  have hprocedure : ∀ q : Procedure, ∃ w ws, q.terminals = w :: ws ∧ w.toKind = .procedureWord :=
    fun q => ⟨_, _, q.terminals_eq_cons, rfl⟩
  obtain ⟨mid₁, hlocals, h⟩ := leaves_append.mp h
  obtain ⟨mid₁', hlocals', h'⟩ := leaves_append.mp h'
  obtain ⟨rfl, rfl⟩ := Unambiguous.flatMap (k := .identifier) (fun _ => ⟨_, _, rfl, rfl⟩)
    (fun g _ => g.unambiguous.append _) locals' ts mid₁ mid₁' hlocals hlocals'
    (Unambiguous.avoids_flatMap hprocedure h (by decide) (by decide))
    (Unambiguous.avoids_flatMap hprocedure h' (by decide) (by decide))
  obtain ⟨mid₂, hall, h⟩ := leaves_append.mp h
  obtain ⟨mid₂', hall', h'⟩ := leaves_append.mp h'
  obtain ⟨rfl, rfl⟩ := Unambiguous.flatMap hprocedure hnested nested' mid₁ mid₂ mid₂' hall hall'
    (h.avoids (by decide)) (h'.avoids (by decide))
  obtain ⟨us, h, h'⟩ := h.tail h'
  obtain ⟨mid₃, hbody, h⟩ := leaves_append.mp h
  obtain ⟨mid₃', hbody', h'⟩ := leaves_append.mp h'
  obtain ⟨rfl, rfl⟩ := Unambiguous.flatMap (k := .identifier) (fun _ => ⟨_, _, rfl, rfl⟩)
    (fun a _ => a.unambiguous) body' us mid₃ mid₃' hbody hbody' (h.avoids (by decide))
    (h'.avoids (by decide))
  obtain ⟨us, h, h'⟩ := h.tail h'
  obtain ⟨rfl, us, h, h'⟩ := Leaves.tail_of_word h h'
  exact ⟨rfl, rfl, rfl, rfl, h.unique h'⟩

mutual

theorem unambiguous : ∀ p : Procedure, Unambiguous [] terminals p
  | mk name parameters locals nested body closing => by
    rintro ⟨name', parameters', locals', nested', body', closing'⟩ ts left left' h h' _ _
    rw [terminals_eq_inner] at h h'
    obtain ⟨us, h, h'⟩ := h.tail h'
    obtain ⟨rfl, us, h, h'⟩ := Leaves.tail_of_word h h'
    obtain ⟨mid, hparameters, h⟩ := leaves_append.mp h
    obtain ⟨mid', hparameters', h'⟩ := leaves_append.mp h'
    obtain ⟨rfl, rfl⟩ := unambiguous_parameterTerminals parameters parameters' us mid mid'
      hparameters hparameters' (h.avoids (by decide)) (h'.avoids (by decide))
    obtain ⟨us, h, h'⟩ := h.tail h'
    obtain ⟨rfl, rfl, rfl, rfl, rfl⟩ := unambiguous_inner (unambiguous_all nested) h h'
    exact ⟨rfl, rfl⟩

theorem unambiguous_all : ∀ (ps : List Procedure), ∀ q ∈ ps, Unambiguous [] terminals q
  | [] => fun _ hq => absurd hq List.not_mem_nil
  | p :: ps => List.forall_mem_cons.mpr ⟨unambiguous p, unambiguous_all ps⟩

end

/-- Tokens are those of one procedure at most. -/
theorem eq_of_spells {p q : Procedure} {ts : List Token} (hp : Spells ts p.terminals)
    (hq : Spells ts q.terminals) : p = q :=
  (p.unambiguous.eq (leaves_nothing.mpr hp) (leaves_nothing.mpr hq)).1

end Procedure

end ProcLang
