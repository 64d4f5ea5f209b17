import Whiley.Proofs.Grammar.Trail

/-!
One stream of tokens and another that goes on after it, or that may be read with more patience. What
the parser makes of the first it makes of the second too, unless it runs into the end of the first.
-/

namespace Whiley

def starters : List Kind :=
  [.kwImport, .kwPublic, .kwPrivate, .kwNative, .kwExport, .kwFunction, .kwMethod, .kwProperty,
    .identifier]

/-- What the streams show after a place, past space: one token, or the end of the first stream. -/
inductive Meets (left right : Input) (inside line : Nat → Prop) (lines : Bool) (p : Nat) : Prop
  | token {t} (hleft : left.tokens[left.skip lines p]? = some t)
      (hright : right.tokens[left.skip lines p]? = some t)
      (skip : right.skip lines p = left.skip lines p) (inside : inside (left.skip lines p))
  | ends (hleft : left.tokens[left.skip lines p]? = none)
      (hright : right.tokens[left.skip lines p]? = none)
      (skip : right.skip lines p = left.skip lines p) (line : line (left.skip lines p))
  | passes (hleft : left.tokens[left.skip lines p]? = none) (wide : lines = true)
      (hright : ∀ t, right.tokens[right.skip lines p]? = some t → t.kind ∈ starters)
      (calm : Calm left.finalTrail)

structure Extension where
  left : Input
  right : Input
  /-- The places inside of the lines of the first stream. -/
  inside : Nat → Prop
  /-- The places where a line begins too. -/
  line : Nat → Prop
  /-- The places in the two streams that answer each other, space apart. -/
  even : Nat → Nat → Prop
  allowance : left.allowance ≤ right.allowance
  line_of_inside : ∀ {p}, inside p → line p
  even_of_line : ∀ {p}, line p → even p p
  meets : ∀ lines {p}, inside p → Meets left right inside line lines p
  meets_even : ∀ {p q t}, even p q → left.tokens[left.skip true p]? = some t →
    right.skip true q = left.skip true p ∧ right.tokens[left.skip true p]? = some t ∧
      inside (left.skip true p)
  step : ∀ {p t}, inside p → left.tokens[p]? = some t → t.kind.isSpace = false → inside (p + 1)
  newline : ∀ {p t}, inside p → left.tokens[p]? = some t → t.kind = .newline → line (p + 1)
  span : ∀ {p p' q'}, line p → even p' q' → left.span p p' = right.span p q'
  lines : ∀ {p q}, even p q → even (left.skipLines p) (right.skipLines q) ∧
    left.indentAt (left.skipLines p) = right.indentAt (right.skipLines q)
  indented : ∀ {p q t}, even p q → left.indentAt p = some t → p = q ∧ inside p

namespace Extension

variable (x : Extension)

/-- Both cursors stand in one place inside of a line, with a trail of which `S` holds. -/
def Where (S : List Kind → Prop) (p q : Nat) : Prop :=
  p = q ∧ x.inside p ∧ S (x.left.trail p)

abbrev On (c : List Kind) : Nat → Nat → Prop :=
  x.Where (· = c)

def At (c : List Kind) (i p q : Nat) : Prop :=
  p = i ∧ x.On c p q

def Before (c : List Kind) (t : Token) (p q : Nat) : Prop :=
  x.On c p q ∧ t.kind.isSpace = false ∧ x.left.tokens[p]? = some t ∧ x.right.tokens[p]? = some t

def Rest (p q : Nat) : Prop :=
  x.even p q ∧ Calm (x.left.trail p)

abbrev final : List Kind :=
  x.left.finalTrail

def AtLine (p q : Nat) : Prop :=
  p = q ∧ x.line p ∧ Calm (x.left.trail p)

def Spot (c : List Kind) (p : Nat) : Prop :=
  x.inside p ∧ x.left.trail p = c

end Extension

namespace Parser

variable {α β : Type} {x : Extension} {E : Prop}

inductive Taken (ks : List Kind) (c : List Kind) : Option Token → List Kind → Prop
  | none : Taken ks c none c
  | some {t} (h : t.kind ∈ ks) : Taken ks c (some t) (t.kind :: c)

def Inner (ks : List Kind) : Prop :=
  ∀ k ∈ ks, k ∉ starters ∧ k.isSpace = false

instance (ks : List Kind) : Decidable (Inner ks) :=
  inferInstanceAs (Decidable (∀ k ∈ ks, k ∉ starters ∧ k.isSpace = false))

/--
The second run ends like the first. When the first fails, the second fails too or `E` holds; failures
that are no complaint about the program are left out.
-/
inductive Sequel (E : Prop) (Q : α → Nat → Nat → Prop) : Result α → Result α → Prop
  | ok {a s t} (arena : s.arena = t.arena) (h : Q a s.pos t.pos) : Sequel E Q (.ok a s) (.ok a t)
  | error {e e' s t} (arena : s.arena = t.arena) :
    Sequel E Q (.error (.error e) s) (.error (.error e') t)
  | astray {e s r} (h : E) : Sequel E Q (.error (.error e) s) r
  | broken {f s r} (h : ∀ e, f ≠ .error e) : Sequel E Q (.error f s) r

/-- From places that `P` relates. -/
def Follows (x : Extension) (E : Prop) (P : Nat → Nat → Prop) (p q : Parser α)
    (Q : α → Nat → Nat → Prop) : Prop :=
  ∀ s t, s.arena = t.arena → P s.pos t.pos → Sequel E Q (p.run x.left s) (q.run x.right t)

theorem Sequel.mono {E' : Prop} {Q R : α → Nat → Nat → Prop} {r r' : Result α} (h : Sequel E Q r r')
    (hE : E → E') (hQ : ∀ a p q, Q a p q → R a p q) : Sequel E' R r r' := by
  cases h with
  | ok arena h => exact .ok arena (hQ _ _ _ h)
  | error arena => exact .error arena
  | astray h => exact .astray (hE h)
  | broken h => exact .broken h

theorem Sequel.of_no_value {Q : α → Nat → Nat → Prop} {r r' : Result α}
    (h : ∀ a s, r ≠ .ok a s) (hE : E) : Sequel E Q r r' := by
  cases r with
  | ok a s => exact absurd rfl (h a s)
  | error f s =>
    cases f with
    | error e => exact .astray hE
    | _ => exact .broken nofun

namespace Follows

variable {P : Nat → Nat → Prop} {c : List Kind} {S : List Kind → Prop}

theorem mono {E' : Prop} {P' : Nat → Nat → Prop} {p q : Parser α} {Q R : α → Nat → Nat → Prop}
    (h : Follows x E P p q Q) (hE : E → E') (hP : ∀ m n, P' m n → P m n)
    (hQ : ∀ a m n, Q a m n → R a m n) : Follows x E' P' p q R :=
  fun s t harena hpos => (h s t harena (hP _ _ hpos)).mono hE hQ

theorem anyway {p q : Parser α} {Q : α → Nat → Nat → Prop} (h : Follows x E P p q Q) :
    Follows x True P p q Q :=
  h.mono (fun _ => trivial) (fun _ _ => id) fun _ _ _ => id

theorem weaken {p q : Parser α} {Q R : α → Nat → Nat → Prop} (h : Follows x E P p q Q)
    (hQ : ∀ a m n, Q a m n → R a m n) : Follows x E P p q R :=
  h.mono id (fun _ _ => id) hQ

theorem from_where {p q : Parser α} {Q : α → Nat → Nat → Prop}
    (h : ∀ c, S c → Follows x E (x.On c) p q Q) : Follows x E (x.Where S) p q Q :=
  fun s t harena hpos => h _ hpos.2.2 s t harena ⟨hpos.1, hpos.2.1, rfl⟩

theorem pure {a : α} {Q : α → Nat → Nat → Prop} (h : ∀ m n, P m n → Q a m n) :
    Follows x E P (pure a) (pure a) Q :=
  fun _ _ harena hpos => .ok harena (h _ _ hpos)

theorem run_then {p q : Parser α} {f g : α → Parser β} {s t : Reading} {R : α → Nat → Nat → Prop}
    {Q : β → Nat → Nat → Prop} (h : Sequel E R (p.run x.left s) (q.run x.right t))
    (hf : ∀ a, Follows x E (R a) (f a) (g a) Q) :
    Sequel E Q ((p >>= f).run x.left s) ((q >>= g).run x.right t) := by
  rw [run_bind, run_bind]
  generalize p.run x.left s = r at h
  generalize q.run x.right t = r' at h
  cases h with
  | ok arena h => exact hf _ _ _ arena h
  | error arena => exact .error arena
  | astray h => exact .astray h
  | broken h => exact .broken h

theorem bind {p q : Parser α} {f g : α → Parser β} {R : α → Nat → Nat → Prop}
    {Q : β → Nat → Nat → Prop} (hp : Follows x E P p q R)
    (hf : ∀ a, Follows x E (R a) (f a) (g a) Q) : Follows x E P (p >>= f) (q >>= g) Q :=
  fun s t harena hpos => run_then (hp s t harena hpos) hf

theorem then_ {p q : Parser α} {f g : α → Parser β} {R : α → List Kind → Prop}
    {Q : β → Nat → Nat → Prop} (hp : Follows x E P p q fun a => x.Where (R a))
    (hf : ∀ a c, R a c → Follows x E (x.On c) (f a) (g a) Q) :
    Follows x E P (p >>= f) (q >>= g) Q :=
  hp.bind fun a => from_where (hf a)

theorem where_of_on (hc : S c) {p q : Nat} (h : x.On c p q) : x.Where S p q :=
  ⟨h.1, h.2.1, h.2.2 ▸ hc⟩

theorem given {a : α} {R : α → List Kind → Prop} (h : R a c) :
    Follows x E (x.On c) (Pure.pure a) (Pure.pure a) fun a => x.Where (R a) :=
  pure fun _ _ hpos => ⟨hpos.1, hpos.2.1, hpos.2.2 ▸ h⟩

theorem fail {f : Failure} {Q : α → Nat → Nat → Prop} :
    Follows x E P (Parser.fail f) (Parser.fail f) Q := by
  intro s t harena _
  cases f with
  | error e => exact .error harena
  | _ => exact .broken nofun

theorem reject {fault : SyntaxFault} {span : Span} {Q : α → Nat → Nat → Prop} :
    Follows x E P (reject fault span) (reject fault span) Q :=
  fun _ _ harena _ => .error harena

theorem exhausted {q : Parser α} {Q : α → Nat → Nat → Prop} :
    Follows x E P (Parser.fail .exhausted) q Q :=
  fun _ _ _ _ => .broken nofun

theorem ofExcept {r : Except SyntaxError α} :
    Follows x E P (ofExcept r) (ofExcept r) fun _ => P := by
  cases r with
  | ok a => exact pure fun _ _ => id
  | error e => exact fun _ _ harena _ => .error harena

theorem ofReading {r : Except Failure α} :
    Follows x E P (ofReading r) (ofReading r) fun _ => P := by
  cases r with
  | ok a => exact pure fun _ _ => id
  | error f => exact fail

theorem located {p q : Parser α} {Q : α → Nat → Nat → Prop}
    (h : ∀ i, x.Spot c i → Follows x E (x.At c i) p q Q) : Follows x E (x.On c) p q Q :=
  fun s t harena hpos => h s.pos hpos.2 s t harena ⟨rfl, hpos⟩

theorem placed_at {f g : Nat → Parser α} {i : Nat} {Q : α → Nat → Nat → Prop}
    (h : Follows x E (x.At c i) (f i) (g i) Q) :
    Follows x E (x.At c i) (Parser.position >>= f) (Parser.position >>= g) Q := by
  intro s t harena hpos
  have hrun := h s t harena hpos
  rw [run_bind, run_bind]
  simp only [Parser.position]
  rwa [← hpos.2.1, hpos.1]

theorem placed {f g : Nat → Parser α} {Q : α → Nat → Nat → Prop}
    (h : ∀ p, x.Spot c p → Follows x E (x.On c) (f p) (g p) Q) :
    Follows x E (x.On c) (Parser.position >>= f) (Parser.position >>= g) Q :=
  located fun i hi => placed_at ((h i hi).mono id (fun _ _ hpos => hpos.2) fun _ _ _ => id)

theorem along {p q : Parser α} {Q : α → Nat → Nat → Prop}
    (h : c <:+ x.final → Follows x E (x.On c) p q Q) : Follows x E (x.On c) p q Q :=
  fun s t harena hpos => h (hpos.2.2 ▸ x.left.trail_suffix_final s.pos) s t harena hpos

theorem moveTo {p : Nat} (hp : x.Spot c p) :
    Follows x E P (moveTo p) (moveTo p) fun _ => x.On c :=
  fun _ _ harena _ => .ok harena ⟨rfl, hp⟩

theorem tokens {f : Input → Parser α} {g : Input → Parser α} {Q : α → Nat → Nat → Prop}
    (h : Follows x E P (f x.left) (g x.right) Q) :
    Follows x E P (Parser.tokens >>= f) (Parser.tokens >>= g) Q :=
  h

theorem allocate [ToNode α] {span : Span} {build : Mark → α} {Q : α → Nat → Nat → Prop}
    (h : ∀ m p q, P p q → Q (build m) p q) :
    Follows x E P (allocate span build) (allocate span build) Q := by
  intro s t harena hpos
  simp only [Parser.allocate, harena]
  exact .ok rfl (h _ _ _ hpos)

theorem make [ToNode α] {start : Nat} {build : Mark → α} {Q : α → Nat → Nat → Prop}
    (hstart : x.line start) (hP : ∀ p q, P p q → x.even p q) (h : ∀ m p q, P p q → Q (build m) p q) :
    Follows x E P (make start build) (make start build) Q := by
  intro s t harena hpos
  have hspan : x.left.span start s.pos = x.right.span start t.pos := x.span hstart (hP _ _ hpos)
  simp only [Parser.make, run_bind, Parser.tokens, Parser.position, Parser.allocate, hspan, harena]
  exact .ok rfl (h _ _ _ hpos)

theorem made [ToNode α] {start : Nat} {c₀ : List Kind} {build : Mark → α}
    {R : α → List Kind → Prop} (hstart : x.Spot c₀ start) (h : ∀ m, R (build m) c) :
    Follows x E (x.On c) (Parser.make start build) (Parser.make start build)
      fun a => x.Where (R a) :=
  make (x.line_of_inside hstart.1)
    (fun _ _ hpos => hpos.1 ▸ x.even_of_line (x.line_of_inside hpos.2.1))
    fun m _ _ hpos => ⟨hpos.1, hpos.2.1, hpos.2.2 ▸ h m⟩

section Tokens

theorem current (hE : c = x.final → E) :
    Follows x E (x.On c) current current (x.Before c) := by
  rintro s t harena ⟨hplace, hinside, htrail⟩
  rw [run_current, run_current, ← hplace]
  cases x.meets true hinside with
  | token hleft hright hskip hnext =>
    rw [hskip, hleft, hright]
    refine .ok harena ⟨⟨rfl, hnext, ?_⟩, x.left.skip_stops hleft, hleft, hright⟩
    rw [Input.trail_skip, htrail]
  | ends hleft hright hskip _ =>
    rw [hskip, hleft, hright]
    exact .error harena
  | passes hleft _ _ _ =>
    rw [hleft]
    exact .astray (hE (htrail.symm.trans (Input.trail_of_end hleft)))

theorem current_rest : Follows x True x.Rest Parser.current Parser.current fun t p q =>
    ∃ c, Calm c ∧ x.Before c t p q := by
  rintro s t harena ⟨heven, hcalm⟩
  rw [run_current]
  cases hleft : x.left.tokens[x.left.skip true s.pos]? with
  | none => exact .astray trivial
  | some u =>
    obtain ⟨hskip, hright, hnext⟩ := x.meets_even heven hleft
    rw [run_current, hskip, hright]
    refine .ok harena ⟨_, hcalm, ⟨rfl, hnext, ?_⟩, x.left.skip_stops hleft, hleft, hright⟩
    rw [Input.trail_skip]

theorem advance_rest : Follows x True x.Rest Parser.advance Parser.advance fun t =>
    x.Where fun c' => ∃ c, Calm c ∧ c' = t.kind :: c := by
  refine current_rest.bind fun t => ?_
  rintro s u harena ⟨c, hc, ⟨hplace, hinside, htrail⟩, hspace, hleft, -⟩
  simp only [run_bind, Parser.position, Parser.moveTo]
  refine .ok harena ⟨congrArg (· + 1) hplace, x.step hinside hleft hspace, c, hc, ?_⟩
  rw [Input.trail_succ hleft hspace, htrail]

theorem expect_rest {k : Kind} (hk : k ≠ .less) :
    Follows x True x.Rest (Parser.expect k) (Parser.expect k) fun _ => x.Where Calm := by
  refine advance_rest.then_ fun t c' ⟨c, _, hc'⟩ => ?_
  split
  · rename_i hkind
    refine given ?_
    rw [hc', hkind]
    exact fun h => hk (Option.some.inj h)
  · exact reject

theorem settled_rest {f g : Nat → Parser α} {Q : α → Nat → Nat → Prop}
    (h : ∀ c t p, Calm c → x.Spot c p → Follows x True (x.Before c t) (f p) (g p) Q) :
    Follows x True x.Rest (settle >>= f) (settle >>= g) Q := by
  rw [settle, bind_assoc, bind_assoc]
  refine current_rest.bind fun t s u harena ⟨c, hc, hpos⟩ => ?_
  have hrun := h c t s.pos hc hpos.1.2 s u harena hpos
  rw [run_bind, run_bind]
  simp only [Parser.position]
  rwa [← hpos.1.1]

theorem before {t : Token} {p q : Parser α} {Q : α → Nat → Nat → Prop}
    (h : Follows x E (x.On c) p q Q) : Follows x E (x.Before c t) p q Q :=
  h.mono id (fun _ _ hpos => hpos.1) fun _ _ _ => id

theorem position_before {t : Token} {f g : Nat → Parser α} {Q : α → Nat → Nat → Prop}
    (h : ∀ p, x.Spot c p → Follows x E (x.Before c t) (f p) (g p) Q) :
    Follows x E (x.Before c t) (Parser.position >>= f) (Parser.position >>= g) Q := by
  intro s u harena hpos
  have hrun := h s.pos hpos.1.2 s u harena hpos
  rw [run_bind, run_bind]
  simp only [Parser.position]
  rwa [← hpos.1.1]

theorem current_before {t : Token} : Follows x E (x.Before c t) Parser.current Parser.current
    fun u p q => u = t ∧ x.Before c t p q := by
  rintro s u harena ⟨⟨hplace, hon⟩, hspace, hleft, hright⟩
  have hskips : Input.skips true t.kind = false := hspace
  rw [run_current, run_current, ← hplace, Input.skip_of_stop hleft hskips,
    Input.skip_of_stop hright hskips, hleft, hright]
  exact .ok harena ⟨rfl, ⟨rfl, hon⟩, hspace, hleft, hright⟩

theorem settled (hE : c = x.final → E) {f g : Nat → Parser α} {Q : α → Nat → Nat → Prop}
    (h : ∀ p, x.Spot c p → Follows x E (x.On c) (f p) (g p) Q) :
    Follows x E (x.On c) (settle >>= f) (settle >>= g) Q := by
  rw [settle, bind_assoc, bind_assoc]
  exact (current hE).bind fun _ => (placed h).before

theorem advance_before {t : Token} : Follows x E (x.Before c t) advance advance fun u =>
    x.Where fun c' => u = t ∧ c' = t.kind :: c := by
  rintro s u harena ⟨⟨hplace, hinside, htrail⟩, hspace, hleft, hright⟩
  have hskips : Input.skips true t.kind = false := hspace
  rw [run_advance, run_advance, ← hplace, Input.skip_of_stop hleft hskips,
    Input.skip_of_stop hright hskips, hleft, hright]
  refine .ok harena ⟨rfl, x.step hinside hleft hspace, rfl, ?_⟩
  rw [Input.trail_succ hleft hspace, htrail]

theorem advance (hE : c = x.final → E) : Follows x E (x.On c) advance advance fun t =>
    x.Where (· = t.kind :: c) := by
  rintro s t harena ⟨hplace, hinside, htrail⟩
  rw [run_advance, run_advance, ← hplace]
  cases x.meets true hinside with
  | token hleft hright hskip hnext =>
    rw [hskip, hleft, hright]
    have hspace := x.left.skip_stops hleft
    refine .ok harena ⟨rfl, x.step hnext hleft hspace, ?_⟩
    rw [Input.trail_succ hleft hspace, Input.trail_skip, htrail]
  | ends hleft hright hskip _ =>
    rw [hskip, hleft, hright]
    exact .error harena
  | passes hleft _ _ _ =>
    rw [hleft]
    exact .astray (hE (htrail.symm.trans (Input.trail_of_end hleft)))

theorem expect {k : Kind} (hE : c = x.final → E) :
    Follows x E (x.On c) (expect k) (expect k) fun _ => x.On (k :: c) := by
  refine (advance hE).then_ fun t c' hc => ?_
  split
  · rename_i hk
    exact given (hc.trans (by rw [hk]))
  · exact reject

theorem taken {ks : List Kind} {t : Token} {s u : Reading} {i : Nat}
    (harena : s.arena = u.arena) (hpos : x.On c s.pos u.pos) (htrail : x.left.trail i = c)
    (hinside : x.inside i) (ht : x.left.tokens[i]? = some t)
    (hks : ∀ k ∈ ks, k.isSpace = false) :
    Sequel E (fun o => x.Where (Taken ks c o))
      (if t.kind ∈ ks then Result.ok (some t) { s with pos := i + 1 } else .ok none s)
      (if t.kind ∈ ks then Result.ok (some t) { u with pos := i + 1 } else .ok none u) := by
  split
  · rename_i hk
    have hspace := hks _ hk
    refine .ok harena ⟨rfl, x.step hinside ht hspace, ?_⟩
    rw [Input.trail_succ ht hspace, htrail]
    exact .some hk
  · exact .ok harena ⟨hpos.1, hpos.2.1, hpos.2.2 ▸ .none⟩

theorem accept_cases {lines : Bool} {ks : List Kind} (hks : ∀ k ∈ ks, k.isSpace = false)
    {s t : Reading} (harena : s.arena = t.arena) (hpos : x.On c s.pos t.pos) :
    Sequel E (fun o => x.Where (Taken ks c o)) ((Parser.accept lines ks).run x.left s)
        ((Parser.accept lines ks).run x.right t) ∨
      (Parser.accept lines ks).run x.left s = .ok none s ∧ c = x.final ∧ Calm x.final ∧
        lines = true ∧ ∀ u, x.right.tokens[x.right.skip lines t.pos]? = some u → u.kind ∈ starters := by
  rw [run_accept, run_accept, ← hpos.1]
  cases x.meets lines hpos.2.1 with
  | token hleft hright hskip hnext =>
    rw [hskip, hleft, hright]
    refine .inl (taken harena hpos ?_ hnext hleft hks)
    rw [Input.trail_skip, hpos.2.2]
  | ends hleft hright hskip _ =>
    rw [hskip, hleft, hright]
    exact .inl (.ok harena ⟨hpos.1, hpos.2.1, hpos.2.2 ▸ .none⟩)
  | passes hleft hwide hright hcalm =>
    rw [hleft]
    exact .inr ⟨rfl, hpos.2.2.symm.trans (Input.trail_of_end hleft), hcalm, hwide, hright⟩

theorem accept_here {ks : List Kind} (hks : ∀ k ∈ ks, k.isSpace = false) :
    Follows x E (x.On c) (Parser.accept false ks) (Parser.accept false ks)
      fun o => x.Where (Taken ks c o) := by
  intro s t harena hpos
  rcases accept_cases hks harena hpos with hrun | ⟨-, -, -, hwide, -⟩
  · exact hrun
  · cases hwide

theorem accept {lines : Bool} {ks : List Kind} (hks : Inner ks) :
    Follows x E (x.On c) (Parser.accept lines ks) (Parser.accept lines ks)
      fun o => x.Where (Taken ks c o) := by
  intro s t harena hpos
  rcases accept_cases (fun k hk => (hks k hk).2) harena hpos with hrun | ⟨hrun, -, -, -, hright⟩
  · exact hrun
  · have hnone : (Parser.accept lines ks).run x.right t = .ok none t := by
      rw [run_accept]
      cases hr : x.right.tokens[x.right.skip lines t.pos]? with
      | none => rfl
      | some u => exact if_neg fun hk => (hks _ hk).1 (hright u hr)
    rw [hrun, hnone]
    exact .ok harena ⟨hpos.1, hpos.2.1, hpos.2.2 ▸ .none⟩

theorem accept_inside {lines : Bool} {ks : List Kind} (hks : ∀ k ∈ ks, k.isSpace = false)
    (hc : ¬ Calm c) :
    Follows x E (x.On c) (Parser.accept lines ks) (Parser.accept lines ks)
      fun o => x.Where (Taken ks c o) := by
  intro s t harena hpos
  rcases accept_cases hks harena hpos with hrun | ⟨-, hend, hcalm, -⟩
  · exact hrun
  · exact absurd (hend ▸ hcalm) hc

theorem acceptNext {k : Kind} (hE : c = x.final → E) :
    Follows x E (x.On c) (acceptNext k) (acceptNext k) fun o => x.Where (Taken [k] c o) := by
  rintro s t harena ⟨hplace, hinside, htrail⟩
  rw [run_acceptNext, run_acceptNext, ← hplace]
  cases x.meets true hinside with
  | token hleft hright hskip hnext =>
    rw [hskip, hleft, hright]
    have hspace := x.left.skip_stops hleft
    have hon := (x.left.trail_skip true s.pos).trans htrail
    dsimp only
    split
    · rename_i hk
      refine .ok harena ⟨rfl, x.step hnext hleft hspace, ?_⟩
      rw [Input.trail_succ hleft hspace, hon]
      exact .some (List.mem_singleton.mpr hk)
    · exact .ok harena ⟨rfl, hnext, hon ▸ .none⟩
  | ends hleft hright hskip _ =>
    rw [hskip, hleft, hright]
    exact .error harena
  | passes hleft _ _ _ =>
    rw [hleft]
    exact .astray (hE (htrail.symm.trans (Input.trail_of_end hleft)))

theorem comes_eq {lines : Bool} {ks : List Kind} (hks : Inner ks) {p : Nat} (hp : x.inside p) :
    comes x.left lines ks p = comes x.right lines ks p := by
  induction ks generalizing p with
  | nil => rfl
  | cons k ks ih =>
    rw [comes, comes]
    cases x.meets lines hp with
    | token hleft hright hskip hnext =>
      rw [hskip, hleft, hright]
      dsimp only
      rename_i t
      by_cases hk : t.kind = k
      · have hspace : t.kind.isSpace = false := hk ▸ (hks k List.mem_cons_self).2
        rw [ih (fun k' hk' => hks k' (List.mem_cons_of_mem k hk')) (x.step hnext hleft hspace)]
      · simp [hk]
    | ends hleft hright hskip _ => rw [hskip, hleft, hright]
    | passes hleft _ hright _ =>
      rw [hleft]
      cases hr : x.right.tokens[x.right.skip lines p]? with
      | none => rfl
      | some u =>
        have hk : u.kind ≠ k := fun hk => (hks k List.mem_cons_self).1 (hk ▸ hright u hr)
        simp [hk]

theorem ahead_from {lines : Bool} {ks : List Kind} (hks : Inner ks)
    (hP : ∀ p q, P p q → x.On c p q) :
    Follows x E P (ahead lines ks) (ahead lines ks) fun _ => P := by
  rintro s t harena hpos
  obtain ⟨hplace, hinside, -⟩ := hP _ _ hpos
  simp only [Parser.ahead, run_bind, Parser.tokens, Parser.position, ← hplace,
    comes_eq hks hinside]
  exact .ok harena hpos

theorem ahead {lines : Bool} {ks : List Kind} (hks : Inner ks) :
    Follows x E (x.On c) (ahead lines ks) (ahead lines ks) fun _ => x.On c :=
  ahead_from hks fun _ _ => id

theorem on_line {f : Option Token → β} {s t : Reading} {Q : β → Nat → Nat → Prop}
    (harena : s.arena = t.arena) (hpos : x.On c s.pos t.pos)
    (h : ∀ o, Q (f o) s.pos t.pos) :
    Sequel E Q (.ok (f x.left.tokens[x.left.skip false s.pos]?) s)
      (.ok (f x.right.tokens[x.right.skip false t.pos]?) t) := by
  rw [← hpos.1]
  cases x.meets false hpos.2.1 with
  | token hleft hright hskip _ =>
    rw [hskip, hleft, hright]
    exact .ok harena (h _)
  | ends hleft hright hskip _ =>
    rw [hskip, hleft, hright]
    exact .ok harena (h _)
  | passes _ hwide _ _ => cases hwide

theorem atLineEnd : Follows x E (x.On c) atLineEnd atLineEnd fun _ => x.On c := by
  intro s t harena hpos
  have hrun : ∀ input (s : Reading), Parser.atLineEnd.run input s =
      .ok (input.tokens[input.skip false s.pos]?.elim true (·.kind = .newline)) s := by
    intro input s
    simp only [Parser.atLineEnd, run_bind, Parser.tokens, Parser.position]
    cases input.tokens[input.skip false s.pos]? <;> rfl
  rw [hrun, hrun]
  exact on_line (f := fun o => o.elim true (·.kind = .newline)) harena hpos fun _ => hpos

theorem endLine (hc : Calm c) : Follows x E (x.On c) endLine endLine fun _ => x.AtLine := by
  rintro s t harena ⟨hplace, hinside, htrail⟩
  have hon := (x.left.trail_skip false s.pos).trans htrail
  rw [run_endLine, run_endLine, ← hplace]
  cases x.meets false hinside with
  | token hleft hright hskip hnext =>
    rw [hskip, hleft, hright]
    dsimp only
    split
    · rename_i hk
      refine .ok harena ⟨rfl, x.newline hnext hleft hk, ?_⟩
      rwa [Input.trail_space hleft (by simp [hk, Kind.isSpace]), hon]
    · exact .error harena
  | ends hleft hright hskip hline =>
    rw [hskip, hleft, hright]
    exact .ok harena ⟨rfl, hline, hon ▸ hc⟩
  | passes _ hwide _ _ => cases hwide

theorem lineStart : Follows x E x.Rest lineStart lineStart
    fun o => o.elim x.Rest fun _ => x.Where Calm := by
  rintro s t harena ⟨heven, hcalm⟩
  obtain ⟨hnext, hindent⟩ := x.lines heven
  have hcalm' : Calm (x.left.trail (x.left.skipLines s.pos)) := by
    rwa [Input.trail_skipLines]
  rw [run_lineStart, run_lineStart, ← hindent]
  cases hat : x.left.indentAt (x.left.skipLines s.pos) with
  | none => exact .ok harena ⟨hnext, hcalm'⟩
  | some u =>
    obtain ⟨hplace, hinside⟩ := x.indented hnext hat
    dsimp only
    split
    · exact .ok harena ⟨hplace, hinside, hcalm'⟩
    · exact .broken nofun

theorem rest_of_line {p q : Nat} (h : x.AtLine p q) : x.Rest p q :=
  ⟨h.1 ▸ x.even_of_line h.2.1, h.2.2⟩

theorem rest_of_where {p q : Nat} (h : x.Where Calm p q) : x.Rest p q :=
  ⟨h.1 ▸ x.even_of_line (x.line_of_inside h.2.1), h.2.2⟩

theorem lineIndent : Follows x E x.Rest lineIndent lineIndent
    fun o => o.elim x.Rest fun _ => x.Where Calm := by
  refine lineStart.bind fun o => ?_
  cases o with
  | none => exact pure fun _ _ => id
  | some _ => exact pure fun _ _ => id

theorem position_line {f g : Nat → Parser α} {Q : α → Nat → Nat → Prop}
    (h : ∀ p, x.line p → Follows x E x.AtLine (f p) (g p) Q) :
    Follows x E x.AtLine (Parser.position >>= f) (Parser.position >>= g) Q := by
  intro s t harena hpos
  have hrun := h s.pos hpos.2.1 s t harena hpos
  rw [run_bind, run_bind]
  simp only [Parser.position]
  rwa [← hpos.1]

theorem position_rest {f g : Nat → Parser α} {Q : α → Nat → Nat → Prop}
    (h : ∀ p q, x.Rest p q → Follows x E x.Rest (f p) (g q) Q) :
    Follows x E x.Rest (Parser.position >>= f) (Parser.position >>= g) Q :=
  fun s t harena hpos => h _ _ hpos s t harena hpos

theorem moveTo_rest {p q : Nat} (h : x.Rest p q) :
    Follows x E P (Parser.moveTo p) (Parser.moveTo q) fun _ => x.Rest :=
  fun _ _ harena _ => .ok harena h

theorem acceptAtIndent {indent : Indent} {k : Kind} (hk : Inner [k]) (hcalm : k ≠ .less) :
    Follows x E x.Rest (acceptAtIndent indent k) (acceptAtIndent indent k)
      fun o => o.elim x.Rest fun _ => x.Where Calm := by
  refine position_rest fun p q hpq => lineIndent.bind fun i => ?_
  split
  · rename_i hi
    rw [hi]
    refine from_where fun c _ => (accept hk).then_ fun o c' ho => ?_
    cases ho with
    | none => exact (moveTo_rest hpq).bind fun _ => pure fun _ _ => id
    | some hmem =>
      refine pure fun _ _ => where_of_on fun h => hcalm ?_
      rw [← List.mem_singleton.mp hmem]
      exact Option.some.inj h
  · exact (moveTo_rest hpq).bind fun _ => pure fun _ _ => id

end Tokens

theorem of_value {p q : Parser α} {Q : α → Nat → Nat → Prop} (h : Follows x E P p q Q)
    {s s' t : Reading} (harena : s.arena = t.arena) (hpos : P s.pos t.pos) {a : α}
    (hrun : p.run x.left s = .ok a s') :
    ∃ t', q.run x.right t = .ok a t' ∧ s'.arena = t'.arena ∧ Q a s'.pos t'.pos := by
  have hsequel := h s t harena hpos
  rw [hrun] at hsequel
  generalize q.run x.right t = r at hsequel
  cases hsequel with
  | @ok _ _ t' arena hpos => exact ⟨t', rfl, arena, hpos⟩

theorem no_value {p q : Parser α} {R : α → List Kind → Prop}
    (h : Follows x E (x.On c) p q fun a => x.Where (R a)) (hR : ∀ a c', R a c' → Spans c c')
    (hend : c = x.final) {s : Reading} (hs : x.Spot c s.pos) (a : α) (s' : Reading) :
    p.run x.left s ≠ .ok a s' := by
  intro hrun
  obtain ⟨_, -, -, hend'⟩ := h.of_value (t := s) rfl ⟨rfl, hs⟩ hrun
  have hlonger := (hR _ _ hend'.2.2).length_lt
  have hshorter := (x.left.trail_suffix_final s'.pos).length_le
  rw [hend] at hlonger
  exact absurd hshorter (Nat.not_le.mpr hlonger)

end Follows

/-- As `Follows`, but the first run may give a value, of which `Z` holds, that the second does not. -/
def Strays (x : Extension) (E : Prop) (P : Nat → Nat → Prop) (p q : Parser α)
    (Q : α → Nat → Nat → Prop) (Z : α → Reading → Prop) : Prop :=
  ∀ s t, s.arena = t.arena → P s.pos t.pos →
    Sequel E Q (p.run x.left s) (q.run x.right t) ∨
      ∃ a s', p.run x.left s = .ok a s' ∧ Z a s'

namespace Strays

variable {P : Nat → Nat → Prop} {c : List Kind} {Z : α → Reading → Prop}

theorem mono {P' : Nat → Nat → Prop} {p q : Parser α} {Q : α → Nat → Nat → Prop}
    (h : Strays x E P p q Q Z) (hP : ∀ m n, P' m n → P m n) : Strays x E P' p q Q Z :=
  fun s t harena hpos => h s t harena (hP _ _ hpos)

theorem bind {p q : Parser α} {f g : α → Parser β} {R : α → Nat → Nat → Prop}
    {Q : β → Nat → Nat → Prop} (hp : Strays x E P p q R Z)
    (hf : ∀ a, Follows x E (R a) (f a) (g a) Q)
    (hZ : ∀ a s, Z a s → E ∧ ∀ b s', (f a).run x.left s ≠ .ok b s') :
    Follows x E P (p >>= f) (q >>= g) Q := by
  intro s t harena hpos
  rcases hp s t harena hpos with hrun | ⟨a, s', hrun, hz⟩
  · exact Follows.run_then hrun hf
  · obtain ⟨hE, hno⟩ := hZ a s' hz
    rw [run_bind, hrun]
    exact .of_no_value (hno) hE

theorem placed {f g : Nat → Parser α} {i : Nat} {Q : α → Nat → Nat → Prop}
    (h : Strays x E (x.At c i) (f i) (g i) Q Z) :
    Strays x E (x.At c i) (position >>= f) (position >>= g) Q Z := by
  intro s t harena hpos
  have hrun := h s t harena hpos
  rw [run_bind, run_bind]
  simp only [Parser.position]
  rwa [← hpos.2.1, hpos.1]

theorem of_follows {p q : Parser α} {Q : α → Nat → Nat → Prop} (h : Follows x E P p q Q) :
    Strays x E P p q Q Z :=
  fun s t harena hpos => .inl (h s t harena hpos)

theorem then_ {p q : Parser α} {f g : α → Parser β} {R : α → Nat → Nat → Prop}
    {Q : β → Nat → Nat → Prop} {Y : β → Reading → Prop} (hp : Strays x E P p q R Z)
    (hf : ∀ a, Strays x E (R a) (f a) (g a) Q Y)
    (hZ : ∀ a s, Z a s → ∃ b s', (f a).run x.left s = .ok b s' ∧ Y b s') :
    Strays x E P (p >>= f) (q >>= g) Q Y := by
  intro s t harena hpos
  have hrun := hp s t harena hpos
  rw [run_bind, run_bind]
  generalize p.run x.left s = r at hrun
  generalize q.run x.right t = r' at hrun
  rcases hrun with hrun | ⟨a, s', rfl, hz⟩
  · cases hrun with
    | ok arena h => exact hf _ _ _ arena h
    | error arena => exact .inl (.error arena)
    | astray h => exact .inl (.astray h)
    | broken h => exact .inl (.broken h)
  · exact .inr (hZ a s' hz)

theorem attempt {p q : Parser α} {i : Nat} {R : α → List Kind → Prop}
    (h : Follows x E (x.On c) p q fun a => x.Where (R a)) :
    Strays x True (x.At c i) (attempt p) (attempt q)
      (fun o => x.Where fun c' => o.elim (c' = c) fun a => R a c')
      fun o s => o = none ∧ s.pos = i ∧ E ∧
        ∃ arena f s', p.run x.left ⟨i, arena⟩ = .error f s' := by
  rintro s t harena ⟨rfl, hpos⟩
  have hrun := h s t harena hpos
  simp only [Parser.attempt]
  generalize hleft : p.run x.left s = r at hrun
  generalize q.run x.right t = r' at hrun
  cases hrun with
  | ok harena' hend => exact .inl (.ok harena' hend)
  | error harena' => exact .inl (.ok harena' hpos)
  | astray hE => exact .inr ⟨_, _, rfl, rfl, rfl, hE, s.arena, _, _, hleft⟩
  | @broken f _ _ hf =>
    refine .inl ?_
    cases f with
    | error e => exact absurd rfl (hf e)
    | _ => exact .broken fun e he => by cases he

theorem accept {lines : Bool} {ks : List Kind} (hks : ∀ k ∈ ks, k.isSpace = false) :
    Strays x E (x.On c) (accept lines ks) (accept lines ks) (fun o => x.Where (Taken ks c o))
      fun o s => o = none ∧ x.Spot c s.pos ∧ c = x.final := by
  intro s t harena hpos
  rcases Follows.accept_cases hks harena hpos with hrun | ⟨hrun, hend, -⟩
  · exact .inl hrun
  · exact .inr ⟨none, s, hrun, rfl, hpos.2, hend⟩

theorem from_where {S : List Kind → Prop} {p q : Parser α} {Q : α → Nat → Nat → Prop}
    (h : ∀ c, S c → Strays x E (x.On c) p q Q Z) : Strays x E (x.Where S) p q Q Z :=
  fun s t harena hpos => h _ hpos.2.2 s t harena ⟨hpos.1, hpos.2.1, rfl⟩

theorem iterate {σ : Type} {I : σ → Nat → Nat → Prop} {Q : α → Nat → Nat → Prop}
    {step step' : σ → Parser (σ ⊕ α)}
    (hstep : ∀ s, Strays x E (I s) (step s) (step' s) (Sum.elim I Q)
      fun r u => ∃ a, r = .inr a ∧ Z a u) {n m : Nat} (hnm : n ≤ m) {s : σ} :
    Strays x E (I s) (iterate step n s) (iterate step' m s) Q Z := by
  induction n generalizing m s with
  | zero => exact of_follows Follows.exhausted
  | succ n ih =>
    obtain ⟨m, rfl⟩ := Nat.exists_eq_add_of_lt hnm
    refine (hstep s).then_ (fun r => ?_) ?_
    · cases r with
      | inl s' => exact ih (by omega)
      | inr a => exact of_follows (.pure fun _ _ => id)
    · rintro r u ⟨a, rfl, hz⟩
      exact ⟨a, u, rfl, hz⟩

theorem repeating {σ : Type} {I : σ → Nat → Nat → Prop} {Q : α → Nat → Nat → Prop}
    {step step' : σ → Parser (σ ⊕ α)}
    (hstep : ∀ s, Strays x E (I s) (step s) (step' s) (Sum.elim I Q)
      fun r u => ∃ a, r = .inr a ∧ Z a u) {s : σ} :
    Strays x E (I s) (repeating step s) (repeating step' s) Q Z :=
  fun t u => iterate hstep x.allowance t u

theorem foldWhile {σ : Type} {I J : σ → Nat → Nat → Prop} {Z : Reading → Prop}
    {step step' : σ → Parser (Option σ)}
    (hstep : ∀ s, Strays x E (I s) (step s) (step' s) (fun o => o.elim (J s) I)
      fun o u => o = none ∧ Z u) {s : σ} :
    Strays x E (I s) (foldWhile step s) (foldWhile step' s) J fun _ => Z := by
  refine repeating fun s => (hstep s).then_ (fun o => ?_) ?_
  · cases o with
    | some s' => exact of_follows (.pure fun _ _ => id)
    | none => exact of_follows (.pure fun _ _ => id)
  · rintro o u ⟨rfl, hz⟩
    exact ⟨_, u, rfl, _, rfl, hz⟩

end Strays

namespace Follows

variable {P : Nat → Nat → Prop} {c : List Kind} {S : List Kind → Prop}

theorem no_current (hend : c = x.final) {s : Reading} (hs : x.Spot c s.pos) (t : Token)
    (s' : Reading) : Parser.current.run x.left s ≠ .ok t s' := by
  intro hrun
  obtain ⟨_, -, -, ⟨-, -, htrail⟩, hspace, hleft, -⟩ :=
    (current (x := x) (E := True) fun _ => trivial).of_value (t := s) rfl ⟨rfl, hs⟩ hrun
  have hlonger := (x.left.trail_suffix_final (s'.pos + 1)).length_le
  rw [Input.trail_succ hleft hspace, htrail, hend] at hlonger
  exact absurd hlonger (by simp)

section Repetition

variable {σ : Type} {I : σ → Nat → Nat → Prop} {Q : α → Nat → Nat → Prop}

theorem iterate {step step' : σ → Parser (σ ⊕ α)}
    (hstep : ∀ s, Follows x E (I s) (step s) (step' s) (Sum.elim I Q)) {n m : Nat} (hnm : n ≤ m)
    {s : σ} : Follows x E (I s) (iterate step n s) (iterate step' m s) Q := by
  induction n generalizing m s with
  | zero => exact exhausted
  | succ n ih =>
    obtain ⟨m, rfl⟩ := Nat.exists_eq_add_of_lt hnm
    refine (hstep s).bind fun r => ?_
    cases r with
    | inl s' => exact ih (by omega)
    | inr a => exact pure fun _ _ => id

theorem repeating {step step' : σ → Parser (σ ⊕ α)}
    (hstep : ∀ s, Follows x E (I s) (step s) (step' s) (Sum.elim I Q)) {s : σ} :
    Follows x E (I s) (repeating step s) (repeating step' s) Q :=
  tokens (iterate hstep x.allowance)

theorem foldWhile {J : σ → Nat → Nat → Prop} {step step' : σ → Parser (Option σ)}
    (hstep : ∀ s, Follows x E (I s) (step s) (step' s) fun o => o.elim (J s) I) {s : σ} :
    Follows x E (I s) (foldWhile step s) (foldWhile step' s) J := by
  refine repeating fun s => (hstep s).bind fun o => ?_
  cases o with
  | some s' => exact pure fun _ _ => id
  | none => exact pure fun _ _ => id

variable {T : List Kind → Prop} {K L : σ → List Kind → Prop}

theorem foldAlong {step step' : σ → Parser (Option σ)} {s : σ} (hs : K s c)
    (hstep : ∀ s c, K s c → Follows x E (x.On c) (step s) (step' s) fun o =>
      x.Where fun c' => o.elim (L s c') fun s' => K s' c') :
    Follows x E (x.On c) (Parser.foldWhile step s) (Parser.foldWhile step' s)
      fun s => x.Where (L s) := by
  refine (foldWhile (I := fun s => x.Where (K s)) (J := fun s => x.Where (L s)) fun s =>
    from_where fun c hc => (hstep s c hc).weaken fun o _ _ ho => ?_).mono id
    (fun _ _ => where_of_on hs) fun _ _ _ => id
  cases o <;> exact ho

theorem manyAlong {next next' : Parser (Option α)} (hs : S c)
    (hnext : ∀ c, S c → Follows x E (x.On c) next next' fun o =>
      x.Where fun c' => o.elim (T c') fun _ => S c') :
    Follows x E (x.On c) (Parser.many next) (Parser.many next') fun _ => x.Where T := by
  refine (foldAlong (K := fun _ => S) (L := fun _ => T) hs fun found c hc =>
    (hnext c hc).then_ fun o c' ho => ?_).bind fun found => pure fun _ _ => id
  cases o with
  | none => exact given ho
  | some a => exact given ho

theorem afterEach {lines : Bool} {separator : Kind} {item item' : Parser α}
    (hsep : Inner [separator]) (hs : S c)
    (hitem : ∀ c, S c → Follows x E (x.On (separator :: c)) item item' fun _ => x.Where S) :
    Follows x E (x.On c) (afterEach lines separator item) (afterEach lines separator item')
      fun _ => x.Where S := by
  refine manyAlong hs fun c hc => (accept hsep).then_ fun o c' ho => ?_
  cases ho with
  | none => exact given hc
  | some hk =>
    rw [List.mem_singleton.mp hk]
    exact (hitem c hc).then_ fun _ _ h => given h

theorem untilClose (started : Bool) {close : Kind} {item item' : σ → Parser σ} {s : σ}
    (hs : if started then S c else T c) (hE : ∀ c, S c ∨ T c → c = x.final → E)
    (hcomma : ∀ c, S c → T (.comma :: c))
    (hitem : ∀ s c, T c → Follows x E (x.On c) (item s) (item' s) fun _ => x.Where S) :
    Follows x E (x.On c) (untilClose close started item s) (untilClose close started item' s)
      fun _ => x.Where fun c' => ∃ c, (S c ∨ T c) ∧ c' = close :: c := by
  refine (foldAlong (K := fun (r : Bool × σ) c => if r.1 then S c else T c)
    (L := fun _ c' => ∃ c, (S c ∨ T c) ∧ c' = close :: c) (s := (started, s)) hs
    fun r c hc => ?_).bind fun r => pure fun _ _ => id
  obtain ⟨started, s⟩ := r
  have hor : S c ∨ T c := by
    cases started with
    | true => exact .inl hc
    | false => exact .inr hc
  refine (acceptNext (hE c hor)).then_ fun o c' ho => ?_
  cases ho with
  | some hk =>
    rw [List.mem_singleton.mp hk]
    exact given ⟨c, hor, rfl⟩
  | none =>
    cases started with
    | true =>
      refine (expect (hE c hor)).bind fun _ => ?_
      exact (hitem s _ (hcomma c hc)).then_ fun _ _ h => given h
    | false => exact (hitem s c hc).then_ fun _ _ h => given h

theorem listUntil {close : Kind} {item item' : Parser α} (hs : T c)
    (hE : ∀ c, S c ∨ T c → c = x.final → E) (hcomma : ∀ c, S c → T (.comma :: c))
    (hitem : ∀ c, T c → Follows x E (x.On c) item item' fun _ => x.Where S) :
    Follows x E (x.On c) (listUntil close item) (listUntil close item') fun _ =>
      x.Where fun c' => ∃ c, (S c ∨ T c) ∧ c' = close :: c :=
  (untilClose false hs hE hcomma fun _ c hc => (hitem c hc).then_ fun _ _ h => given h).bind
    fun _ => pure fun _ _ => id

end Repetition

end Follows

end Parser

end Whiley
