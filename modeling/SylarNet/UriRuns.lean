import SylarNet.UriParser
import SylarNet.UriTransitions
import SylarNet.UriLanguages

/-!
# Runs of the machine for URIs

What `Uri::Create` makes of the rest of a text, by the characters before it. A part of the text
inside of which nothing is executed is one step.
-/
namespace UriRuns

open RagelMachine UriGrammar UriParser UriTransitions UriAuthority SylarUri

/-- The end of `create`. -/
def finish : Option State × Variables → Except Fault (Option Uri)
  | (none, _) => .ok none
  | (some st, v) => .ok (if main.accepting st then some v.uri else none)

/-- Behind the characters of `done`. -/
def go (done : List UInt8) (l : Live) (v : Variables) (todo : List UInt8) :
    Except Fault (Option Uri) :=
  exec (done ++ todo) done.length ⟨false, l⟩ v todo >>= finish

variable {done todo w : List UInt8} {l l' : Live} {v v' : Variables} {c : UInt8}
  {acts : List Action}

theorem create_eq (text : List UInt8) :
    create text = exec text 0 .initial ⟨none, emptyUri⟩ text >>= finish := by
  unfold create
  congr 1
  funext ⟨cs, v⟩
  cases cs <;> rfl

@[simp] theorem perform_nil (text : List UInt8) (p : ℕ) (v : Variables) :
    perform text p v [] = .ok v := rfl

theorem perform_cons {text : List UInt8} {p : ℕ} {a : Action} (h : act text p v a = .ok v') :
    perform text p v (a :: acts) = perform text p v' acts := by
  rw [perform, List.foldlM_cons, h]
  rfl

theorem perform_append {text : List UInt8} {p : ℕ} (h : perform text p v acts = .ok v')
    (acts' : List Action) : perform text p v (acts ++ acts') = perform text p v' acts' := by
  rw [perform] at h
  rw [perform, List.foldlM_append, h]
  rfl

theorem perform_last {text : List UInt8} {p : ℕ} {a : Action} (h : act text p v a = .ok v') :
    perform text p v [a] = .ok v' := by
  rw [perform_cons h, perform_nil]

theorem save_some (text : List UInt8) (p m : ℕ) (u : Uri) (set : Uri → List UInt8 → Uri) :
    save text p ⟨some m, u⟩ set = .ok ⟨none, set u (marked text p m)⟩ := rfl

theorem next_of_move (h : main.move c l = (l', acts)) (hl : l' ≠ .none) :
    main.next ⟨false, l⟩ c = some (⟨false, l'⟩, acts) := by
  obtain ⟨rfl, rfl⟩ := Prod.mk.inj h
  exact if_neg hl

theorem next_of_move_none (h : main.move c l = (.none, acts)) : main.next ⟨false, l⟩ c = none :=
  if_pos (Prod.mk.inj h).1

theorem go_none : go done .none v todo = .ok none := by
  cases todo with
  | nil =>
    have haccept : main.accepting ⟨false, .none⟩ = false := by decide
    rw [go, exec, eofActions, haccept]
    simp
    rfl
  | cons c todo =>
    have hmove : main.move c .none = (.none, []) := by rw [move_of_step (step_none main c)]; rfl
    rw [go, exec, next_of_move_none hmove]
    rfl

theorem go_cons (h : main.move c l = (l', acts))
    (hv : perform (done ++ c :: todo) done.length v acts = .ok v') :
    go done l v (c :: todo) = go (done ++ [c]) l' v' todo := by
  by_cases hl : l' = .none
  · rw [hl, go_none, go, exec, next_of_move_none (hl ▸ h)]
    rfl
  · rw [go, exec, next_of_move h hl]
    dsimp only
    rw [hv, go, List.append_assoc, List.length_append]
    rfl

theorem go_fault (h : main.move c l = (l', acts)) (hl : l' ≠ .none) {e : Fault}
    (hv : perform (done ++ c :: todo) done.length v acts = .error e) :
    go done l v (c :: todo) = .error e := by
  rw [go, exec, next_of_move h hl]
  dsimp only
  rw [hv]
  rfl

theorem go_nil (h : main.final l = true) :
    go done l v [] = (perform done done.length v (main.leave l)).map fun v => some v.uri := by
  have haccept : main.accepting ⟨false, l⟩ = true := h
  have hdepart : main.departing false l = main.pending l := by
    rw [Machine.departing, if_pos h]
    exact List.append_nil _
  rw [go, List.append_nil, exec, eofActions, if_pos haccept, hdepart, ← Machine.leave]
  cases perform done done.length v (main.leave l) with
  | error e => rfl
  | ok v =>
    change finish (some ⟨false, l⟩, v) = _
    rw [finish, if_pos haccept]
    rfl

/-- A word none of whose characters executes anything. -/
theorem go_word {σ : Type} (F : σ → Live) (g : σ → UInt8 → σ) {s : σ}
    (h : ∀ u c t, w = u ++ c :: t → main.move c (F (u.foldl g s)) = (F (g (u.foldl g s) c), [])) :
    go done (F s) v (w ++ todo) = go (done ++ w) (F (w.foldl g s)) v todo := by
  induction w generalizing done s with
  | nil => rw [List.append_nil, List.nil_append, List.foldl_nil]
  | cons c w ih =>
    have hfirst : main.move c (F s) = (F (g s c), []) := h [] c w rfl
    rw [List.cons_append, go_cons hfirst (perform_nil _ _ v), List.foldl_cons, ih,
      List.append_assoc]
    · rfl
    · intro u d t hw
      exact h (c :: u) d t (congrArg (c :: ·) hw)

theorem track_eq_foldl (m : Rule) (l : Live) (w : List UInt8) :
    m.track false l w = w.foldl (fun l c => (m.step c false l).1) l := by
  induction w generalizing l with
  | nil => rfl
  | cons c w ih => exact ih _

/-- What an action cuts out of the text. -/
theorem marked_word (done w todo : List UInt8) :
    marked (done ++ w ++ todo) (done ++ w).length done.length = w := by
  rw [marked, List.take_left, List.drop_left]

theorem marked_self (text : List UInt8) (p : ℕ) : marked text p p = [] := by
  rw [marked, List.drop_eq_nil_iff]
  exact List.length_take_le p text

/-!
## The scheme
-/

def schemeChar (c : UInt8) : Bool :=
  Http11Grammar.alpha c || Http11Grammar.digit c || Http11Grammar.oneOf "+-." c

def schemeFirst : Live := (main.start 97).1
def schemeRest : Live := (main.move 97 schemeFirst).1

/-- Behind `scheme ":"` and behind the slash after it. -/
def afterColon : Live := (main.move 58 schemeRest).1
def afterSlash : Live := (main.move 47 afterColon).1

theorem start_scheme : ∀ c : UInt8, Http11Grammar.alpha c = true →
    main.start c = (schemeFirst, [.marku]) := by
  decide +kernel

theorem move_scheme : ∀ c : UInt8, schemeChar c = true →
    main.move c schemeFirst = (schemeRest, []) ∧ main.move c schemeRest = (schemeRest, []) := by
  decide +kernel

theorem move_scheme_end : main.move 58 schemeFirst = (afterColon, [.saveScheme]) ∧
    main.move 58 schemeRest = (afterColon, [.saveScheme]) ∧
    main.move 47 afterColon = (afterSlash, []) ∧
    main.move 47 afterSlash = (atFront (atSlashed slashes), []) := by
  decide +kernel

theorem create_start {c : UInt8} (h : main.start c = (l, acts)) (hl : l ≠ .none)
    (hv : perform (c :: todo) 0 ⟨none, emptyUri⟩ acts = .ok v) :
    create (c :: todo) = go [c] l v todo := by
  have hnext : main.next .initial c = some (⟨false, l⟩, acts) := by
    obtain ⟨rfl, rfl⟩ := Prod.mk.inj h
    exact if_neg hl
  rw [create_eq, exec, hnext]
  dsimp only
  rw [hv]
  rfl

def schemeUri (s : List UInt8) : Uri := { emptyUri with scheme := s }

theorem go_scheme_end (h : main.move 58 l = (afterColon, [.saveScheme])) (w todo : List UInt8) :
    go w l ⟨some 0, emptyUri⟩ (58 :: 47 :: 47 :: todo) =
      go (w ++ SylarHttp.bytes "://") (atFront (atSlashed slashes)) ⟨none, schemeUri w⟩ todo := by
  obtain ⟨-, -, hslash, hslashes⟩ := move_scheme_end
  have hsave : perform (w ++ 58 :: 47 :: 47 :: todo) w.length ⟨some 0, emptyUri⟩ [.saveScheme] =
      .ok ⟨none, schemeUri w⟩ := by
    have hw : marked (w ++ 58 :: 47 :: 47 :: todo) w.length 0 = w :=
      marked_word [] w (58 :: 47 :: 47 :: todo)
    simp [perform, act, save, hw]
    rfl
  rw [go_cons h hsave, go_cons hslash (perform_nil _ _ _), go_cons hslashes (perform_nil _ _ _),
    List.append_assoc, List.append_assoc]
  rfl

theorem create_scheme (s : UriComponents.Scheme) (todo : List UInt8) :
    create (s.text ++ SylarHttp.bytes "://" ++ todo) =
      go (s.text ++ SylarHttp.bytes "://") (atFront (atSlashed slashes))
        ⟨none, schemeUri s.text⟩ todo := by
  have htext : s.text ++ SylarHttp.bytes "://" ++ todo =
      s.first :: (s.rest ++ 58 :: 47 :: 47 :: todo) := by
    rw [UriComponents.Scheme.text, List.cons_append, List.cons_append, List.append_assoc]
    rfl
  have hmark : perform (s.first :: (s.rest ++ 58 :: 47 :: 47 :: todo)) 0 ⟨none, emptyUri⟩
      [.marku] = .ok ⟨some 0, emptyUri⟩ := rfl
  have hfirst : schemeFirst ≠ .none := by decide
  rw [htext, create_start (start_scheme s.first s.alpha_first) hfirst hmark,
    UriComponents.Scheme.text]
  cases hrest : s.rest with
  | nil => exact go_scheme_end move_scheme_end.1 [s.first] todo
  | cons c t =>
    have hall := s.rest_allowed
    rw [hrest, List.forall_mem_cons] at hall
    have hword (u : List UInt8) (d : UInt8) (t' : List UInt8) (ht : t = u ++ d :: t') :
        main.move d schemeRest = (schemeRest, []) :=
      (move_scheme d (hall.2 d (ht ▸ List.mem_append_right u List.mem_cons_self))).2
    rw [List.cons_append, go_cons (move_scheme c hall.1).1 (perform_nil _ _ _),
      go_word (s := ()) (fun _ => schemeRest) (fun _ _ => ()) hword,
      go_scheme_end move_scheme_end.2.1, List.append_assoc]
    rfl

/-!
## The query and the fragment
-/

theorem act_savePath (text : List UInt8) (p m : ℕ) (u : Uri) :
    act text p ⟨some m, u⟩ .savePath = .ok ⟨none, { u with path := marked text p m }⟩ := rfl

theorem act_saveQuery (text : List UInt8) (p : ℕ) (v : Variables) :
    act text p v .saveQuery = save text p v fun u s => { u with query := s } := rfl

theorem act_saveFragment (text : List UInt8) (p : ℕ) (v : Variables) :
    act text p v .saveFragment = save text p v fun u s => { u with fragment := s } := rfl

/-- A query or a fragment, up to where it is left. -/
theorem go_pchars {F : Live → Live} {part : Rule} {lead : UInt8 → Bool} {a : Action}
    {set : Uri → List UInt8 → Uri} (hpart : part = pchars.led lead .marku a)
    (ha : Action.marku ≠ a) (hsave : ∀ text p v, act text p v a = save text p v set)
    (hmem : w ∈ pchars.language)
    (hmove : ∀ c ∈ w, ∀ l, main.move c (F l) = (F (part.move c l).1, (part.move c l).2))
    (done todo : List UInt8) (v : Variables) : ∃ l' v', part.final l' = true ∧
      (∀ rest, perform (done ++ w ++ rest) (done ++ w).length v' (part.leave l') =
        .ok ⟨none, set v.uri w⟩) ∧
      go done (F .led) v (w ++ todo) = go (done ++ w) (F l') v' todo := by
  subst hpart
  have hnull : pchars.nullable = true := by decide
  cases w with
  | nil =>
    refine ⟨.led, v, final_led.trans hnull, fun rest => ?_, by rw [List.append_nil]; rfl⟩
    rw [leave_led pchars_silent hnull ha, perform_cons rfl]
    apply perform_last
    rw [hsave, save_some, marked_self]
  | cons c w =>
    have hplain : pchars.plain = true := by decide
    have hfinal : pchars.final (pchars.reached (c :: w)) = true :=
      (final_reached hplain (List.cons_ne_nil c w)).2 hmem
    refine ⟨.inside (pchars.reached (c :: w)), ⟨some done.length, v.uri⟩,
      (final_inside _).trans hfinal, fun rest => ?_, ?_⟩
    · rw [leave_inside pchars_silent hfinal]
      apply perform_last
      rw [hsave, save_some, marked_word]
    · have hfirst := hmove c List.mem_cons_self .led
      rw [move_led pchars_silent (starts_of_mem hmem)] at hfirst
      have hword (u : List UInt8) (d : UInt8) (t : List UInt8) (ht : w = u ++ d :: t) (l : Live) :
          main.move d (F (.inside l)) = (F (.inside (pchars.step d false l).1), []) := by
        have hd : d ∈ c :: w :=
          List.mem_cons_of_mem c (ht ▸ List.mem_append_right u List.mem_cons_self)
        rw [hmove d hd, move_inside pchars_silent]
      rw [List.cons_append, go_cons hfirst (perform_last rfl),
        go_word (fun l => F (.inside l)) (fun l c => (pchars.step c false l).1)
          (fun u d t ht => hword u d t ht _), ← track_eq_foldl, List.append_assoc]
      rfl

/-- The query and the fragment, where there are any. -/
def tailText (q f : Option (List UInt8)) : List UInt8 :=
  (q.elim [] fun q => 63 :: q) ++ f.elim [] fun f => 35 :: f

def withTail (q f : Option (List UInt8)) (u : Uri) : Uri :=
  { u with query := q.getD u.query, fragment := f.getD u.fragment }

theorem go_fragment {f : List UInt8} (hf : f ∈ pchars.language) (done : List UInt8)
    (v : Variables) :
    go done (atFragment .led) v f = .ok (some { v.uri with fragment := f }) := by
  obtain ⟨l', v', hfinal, hleave, hgo⟩ := go_pchars (F := atFragment)
    fragmentPart_eq (by decide) act_saveFragment hf (fun c _ l => move_fragment l) done [] v
  rw [List.append_nil] at hgo
  have hleave := hleave []
  rw [List.append_nil] at hleave
  rw [hgo, go_nil ((final_atFragment l').trans hfinal), leave_atFragment, hleave]
  rfl

theorem go_query {q : List UInt8} (hq : q ∈ pchars.language) (hhash : 35 ∉ q)
    {f : Option (List UInt8)} (hf : ∀ t ∈ f, t ∈ pchars.language) (done : List UInt8)
    (v : Variables) : go done (atQuery .led) v (q ++ tailText none f) =
      .ok (some (withTail (some q) f v.uri)) := by
  obtain ⟨l', v', hfinal, hleave, hgo⟩ := go_pchars (F := atQuery) queryPart_eq
    (by decide) act_saveQuery hq (fun c hc l => move_query (fun h => hhash (h ▸ hc)) l) done
    (tailText none f) v
  rw [hgo]
  cases f with
  | none =>
    have hleave := hleave []
    rw [List.append_nil] at hleave
    change go (done ++ q) (atQuery l') v' [] = _
    rw [go_nil ((final_atQuery l').trans hfinal), leave_atQuery hfinal, hleave]
    rfl
  | some f =>
    change go (done ++ q) (atQuery l') v' (35 :: f) = _
    rw [go_cons (move_query_to_fragment hfinal) (hleave (35 :: f)), go_fragment (hf f rfl)]
    rfl

/-- Whatever is executed on leaving the part in front of the query and the fragment. -/
theorem go_tail (hl : front.final l = true) {q f : Option (List UInt8)}
    (hq : ∀ t ∈ q, t ∈ pchars.language ∧ 35 ∉ t) (hf : ∀ t ∈ f, t ∈ pchars.language)
    (done : List UInt8) (v : Variables) :
    go done (atFront l) v (tailText q f) =
      (perform (done ++ tailText q f) done.length v (front.leave l)).map
        fun v => some (withTail q f v.uri) := by
  cases q with
  | some q =>
    obtain ⟨hq, hhash⟩ := hq q rfl
    have htext : tailText (some q) f = 63 :: (q ++ tailText none f) := rfl
    rw [htext]
    cases hv : perform (done ++ 63 :: (q ++ tailText none f)) done.length v (front.leave l) with
    | error e => exact go_fault (move_to_query hl) (by decide) hv
    | ok v' =>
      rw [go_cons (move_to_query hl) hv, go_query hq hhash hf]
      rfl
  | none =>
    cases f with
    | some f =>
      have htext : tailText none (some f) = 35 :: f := rfl
      rw [htext]
      cases hv : perform (done ++ 35 :: f) done.length v (front.leave l) with
      | error e => exact go_fault (move_to_fragment hl) (by decide) hv
      | ok v' =>
        rw [go_cons (move_to_fragment hl) hv, go_fragment (hf f rfl)]
        rfl
    | none =>
      have htext : tailText none none = [] := rfl
      rw [htext, List.append_nil, go_nil ((final_atFront l).trans hl), leave_atFront hl]
      rfl

/-!
## The path
-/

/-- In the authority. -/
def auth (l : Live) : Live := atFront (atSlashed (inAuthority l))

/-- What is executed on the slash behind the authority, and where nothing is behind it. -/
def onSlash (l : Live) : List Action :=
  inOrder (under 1 (under 2 (authority.pending l)) ++ [([2, 1, 0], .markh)])

def onLeaving (l : Live) : List Action :=
  inOrder (under 1 (under 2 (authority.pending l)) ++ [([2, 1, 0], .markh), ([2, 3], .savePath)])

section Path

variable {path : List UInt8} {q f : Option (List UInt8)}

/-- A path that is not empty, behind its slash. -/
theorem go_path (hl : authority.final l = true) (hpath : 47 :: path ∈ pathAbempty.language)
    (hchars : 63 ∉ path ∧ 35 ∉ path) (hq : ∀ t ∈ q, t ∈ pchars.language ∧ 35 ∉ t)
    (hf : ∀ t ∈ f, t ∈ pchars.language)
    (hv : perform (done ++ 47 :: path ++ tailText q f) done.length v (onSlash l) = .ok v') :
    go done (auth l) v (47 :: path ++ tailText q f) =
      (perform (done ++ 47 :: path ++ tailText q f) (done ++ 47 :: path).length v' [.savePath]).map
        fun v => some (withTail q f v.uri) := by
  have hplain : pathAbempty.plain = true := by decide
  have hslash : main.move 47 (auth l) =
      (atFront (atPath (pathAbempty.reached [47])), onSlash l) := by
    rw [auth, move_front (by decide) (by decide), move_slash hl]
    rfl
  have hword (u : List UInt8) (d : UInt8) (t : List UInt8) (ht : path = u ++ d :: t) (l : Live) :
      main.move d (atFront (atPath l)) =
        (atFront (atPath (pathAbempty.step d false l).1), []) := by
    have hd : d ∈ path := ht ▸ List.mem_append_right u List.mem_cons_self
    rw [move_front (fun h => hchars.1 (h ▸ hd)) (fun h => hchars.2 (h ▸ hd)), move_path]
  have hreached :
      path.foldl (fun l c => (pathAbempty.step c false l).1) (pathAbempty.reached [47]) =
        pathAbempty.reached (47 :: path) := (track_eq_foldl pathAbempty _ path).symm
  have hfinal : pathAbempty.final (pathAbempty.reached (47 :: path)) = true :=
    (final_reached hplain (List.cons_ne_nil 47 path)).2 hpath
  have hfront := (final_atPath _).trans hfinal
  rw [List.append_assoc, List.cons_append] at hv
  rw [List.append_cons done 47 path, List.cons_append, go_cons hslash hv,
    go_word (fun l => atFront (atPath l)) (fun l c => (pathAbempty.step c false l).1)
      (fun u d t ht => hword u d t ht _), hreached, go_tail hfront hq hf, leave_atPath hfinal]

/-- An empty path. -/
theorem go_no_path (hl : authority.final l = true) (hq : ∀ t ∈ q, t ∈ pchars.language ∧ 35 ∉ t)
    (hf : ∀ t ∈ f, t ∈ pchars.language) (done : List UInt8) (v : Variables) :
    go done (auth l) v (tailText q f) =
      (perform (done ++ tailText q f) done.length v (onLeaving l)).map
        fun v => some (withTail q f v.uri) := by
  rw [auth, go_tail ((final_atSlashed l).trans hl) hq hf, leave_atSlashed hl]
  rfl

end Path

end UriRuns
