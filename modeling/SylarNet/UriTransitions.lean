import SylarNet.UriAuthority

/-!
# The transitions around the authority

The scheme, the step into the authority and from it into a path, and the query and the fragment
behind either.
-/
namespace UriTransitions

open RagelMachine UriGrammar UriAuthority

/-- `scheme ":" hier_part` -/
def front : Rule := cat scheme [lit ":", hierPart]

/-- `"//" authority` -/
def slashed : Rule := cat (lit "//") [authority]

theorem main_eq : main =
    .alt (.seq .plain (.seq .plain front queryPart) fragmentPart) relativeRef := rfl

theorem front_eq : front = .seq .plain (cat scheme [lit ":"])
    (.alt (.seq .plain slashed pathPart)
      (.alt pathAbsolute (.alt pathRootless pathEmpty))) := rfl

theorem slashed_eq : slashed = .seq .plain (lit "//") authority := rfl

theorem pathPart_eq : pathPart = pathAbempty.span .markh .savePath := rfl

theorem queryPart_eq : queryPart = pchars.led (· == 63) .marku .saveQuery := rfl

theorem fragmentPart_eq : fragmentPart = pchars.led (· == 35) .marku .saveFragment := rfl

theorem queryPart_skipped : queryPart.skipped = [] := skipped_led
theorem fragmentPart_skipped : fragmentPart.skipped = [] := skipped_led

theorem pathAbempty_silent : pathAbempty.silent = true := by decide
theorem pchars_silent : pchars.silent = true := by decide

/-- In front of the query, in it, or in the fragment. -/
def atFront (l : Live) : Live := .mk (.mk (.mk l .none) .none) .none
def atQuery (l : Live) : Live := .mk (.mk (.mk .none l) .none) .none
def atFragment (l : Live) : Live := .mk (.mk .none l) .none

/-- In `"//" authority` or in the path behind it. -/
def atSlashed (l : Live) : Live := .mk .none (.mk (.mk l .none) .none)
def atPath (l : Live) : Live := .mk .none (.mk (.mk .none l) .none)

/-- Behind the slashes, and in the authority. -/
def slashes : Live := .mk (.mk .none .here) .none
def inAuthority (l : Live) : Live := .mk .none l

variable {c : UInt8} {l : Live}

theorem queryPart_starts (hc : c ≠ 63) : queryPart.starts c = false := led_not_starts (by simpa)

theorem fragmentPart_starts (hc : c ≠ 35) : fragmentPart.starts c = false :=
  led_not_starts (by simpa)

/-- Paths begin with a slash, and only this. -/
theorem slash_only : ∀ c : UInt8, c ≠ 47 →
    pathPart.starts c = false ∧ (lit "//").rejects c = true := by
  decide +kernel

/-!
## Moves inside the parts
-/

theorem move_front (hq : c ≠ 63) (hf : c ≠ 35) (l : Live) :
    main.move c (atFront l) = (atFront (front.move c l).1, (front.move c l).2) := by
  rw [main_eq, atFront, move_alt_left, move_seq_left (by decide) (fragmentPart_starts hf),
    move_seq_left (by decide) (queryPart_starts hq)]
  rfl

theorem move_slashed (hc : c ≠ 47) (l : Live) :
    front.move c (atSlashed l) = (atSlashed (slashed.move c l).1, (slashed.move c l).2) := by
  rw [front_eq, atSlashed, move_seq_right, move_alt_left,
    move_seq_left (by decide) (slash_only c hc).1]
  rfl

theorem move_authority (l : Live) : slashed.move c (inAuthority l) =
    (inAuthority (authority.move c l).1, (authority.move c l).2) := by
  rw [slashed_eq, inAuthority, move_seq_right]
  rfl

theorem move_slashes (hc : c ≠ 47) (h : authority.starts c = true) :
    slashed.move c slashes = (inAuthority (authority.start c).1, (authority.start c).2) := by
  rw [slashed_eq, slashes, move_seq_start (slash_only c hc).2 rfl h rfl]
  rfl

theorem move_path (l : Live) :
    front.move c (atPath l) = (atPath (pathAbempty.step c false l).1, []) := by
  rw [front_eq, atPath, move_seq_right, move_alt_left, move_seq_right, pathPart_eq,
    move_of_step (step_span pathAbempty_silent false l)]
  rfl

theorem move_query (hf : c ≠ 35) (l : Live) :
    main.move c (atQuery l) = (atQuery (queryPart.move c l).1, (queryPart.move c l).2) := by
  rw [main_eq, atQuery, move_alt_left, move_seq_left (by decide) (fragmentPart_starts hf),
    move_seq_right]
  rfl

theorem move_fragment (l : Live) :
    main.move c (atFragment l) =
      (atFragment (fragmentPart.move c l).1, (fragmentPart.move c l).2) := by
  rw [main_eq, atFragment, move_alt_left, move_seq_right]
  rfl

/-!
## Moves from one part to the next
-/

theorem pending_slashed (l : Live) :
    slashed.pending (inAuthority l) = under 2 (authority.pending l) := by
  rw [slashed_eq, inAuthority, pending_seq_mk, final_none, Bool.and_false]
  rfl

theorem final_slashed (l : Live) : slashed.final (inAuthority l) = authority.final l := by
  rw [slashed_eq, inAuthority, final_seq_mk, final_none, Bool.and_false, Bool.or_false]

/-- From the authority into a path. -/
theorem move_slash (hl : authority.final l = true) :
    front.move 47 (atSlashed (inAuthority l)) = (atPath (pathAbempty.reached [47]),
      inOrder (under 1 (under 2 (authority.pending l)) ++ [([2, 1, 0], .markh)])) := by
  have hauthority : authority.rejects 47 = true := by decide
  have hfinal := (final_slashed l).trans hl
  have hstep : slashed.step 47 false (inAuthority l) = (.none, []) := by
    rw [slashed_eq, inAuthority, step_seq_right, step_of_rejects hauthority]
    rfl
  rw [front_eq, atSlashed, move_seq_right, move_alt_left,
    move_of_step (step_seq_cross hfinal (by decide)), hstep, pending_slashed, pathPart_eq,
    step_span pathAbempty_silent]
  rfl

theorem move_to_query (hl : front.final l = true) :
    main.move 63 (atFront l) = (atQuery .led, front.leave l) := by
  have hreject : front.rejects 63 = true := by decide
  rw [main_eq, atFront, move_alt_left, move_seq_left (by decide) (by decide),
    move_seq_cross hreject hl (by decide) rfl]
  rfl

theorem final_front_query (l k : Live) :
    (Machine.seq .plain front queryPart).final (.mk l k) =
      (queryPart.final k || front.final l) := by
  rw [final_seq_mk]
  rfl

theorem move_to_fragment (hl : front.final l = true) :
    main.move 35 (atFront l) = (atFragment .led, front.leave l) := by
  have hreject : (Machine.seq .plain front queryPart).rejects 35 = true := by decide
  have hfinal : (Machine.seq .plain front queryPart).final (.mk l .none) = true := by
    rw [final_front_query, hl, Bool.or_true]
  rw [main_eq, atFront, move_alt_left, move_seq_cross hreject hfinal (by decide) rfl,
    leave_seq_left (by decide) queryPart_skipped hl]
  rfl

theorem move_query_to_fragment (hl : queryPart.final l = true) :
    main.move 35 (atQuery l) = (atFragment .led, queryPart.leave l) := by
  have hreject : (Machine.seq .plain front queryPart).rejects 35 = true := by decide
  have hfinal : (Machine.seq .plain front queryPart).final (.mk .none l) = true := by
    rw [final_front_query, hl, Bool.true_or]
  rw [main_eq, atQuery, move_alt_left, move_seq_cross hreject hfinal (by decide) rfl,
    leave_seq_right]
  rfl

/-!
## The end of the text
-/

theorem final_atFront (l : Live) : main.final (atFront l) = front.final l := by
  rw [main_eq, atFront, final_alt_mk, final_seq_mk, final_front_query]
  simp
  exact fun _ => rfl

theorem final_atQuery (l : Live) : main.final (atQuery l) = queryPart.final l := by
  rw [main_eq, atQuery, final_alt_mk, final_seq_mk, final_front_query]
  simp
  exact fun _ => rfl

theorem final_atFragment (l : Live) : main.final (atFragment l) = fragmentPart.final l := by
  rw [main_eq, atFragment, final_alt_mk, final_seq_mk]
  simp

theorem leave_atFront (hl : front.final l = true) : main.leave (atFront l) = front.leave l := by
  have hfinal : (Machine.seq .plain front queryPart).final (.mk l .none) = true := by
    rw [final_front_query, hl, Bool.or_true]
  rw [main_eq, atFront, leave_alt_left, leave_seq_left (by decide) fragmentPart_skipped hfinal,
    leave_seq_left (by decide) queryPart_skipped hl]

theorem leave_atQuery (hl : queryPart.final l = true) :
    main.leave (atQuery l) = queryPart.leave l := by
  have hfinal : (Machine.seq .plain front queryPart).final (.mk .none l) = true := by
    rw [final_front_query, hl, Bool.true_or]
  rw [main_eq, atQuery, leave_alt_left, leave_seq_left (by decide) fragmentPart_skipped hfinal,
    leave_seq_right]

theorem leave_atFragment (l : Live) : main.leave (atFragment l) = fragmentPart.leave l := by
  rw [main_eq, atFragment, leave_alt_left, leave_seq_right]

theorem final_atSlashed (l : Live) :
    front.final (atSlashed (inAuthority l)) = authority.final l := by
  rw [front_eq, atSlashed, final_seq_mk, final_alt_mk, final_seq_mk, final_slashed]
  simp
  exact fun _ => rfl

theorem final_atPath (l : Live) : front.final (atPath l) = pathAbempty.final l := by
  rw [front_eq, atPath, final_seq_mk, final_alt_mk, final_seq_mk]
  simp
  rfl

/-- Leaving the authority behind which there is no path. -/
theorem leave_atSlashed (hl : authority.final l = true) :
    front.leave (atSlashed (inAuthority l)) =
      inOrder (under 1 (under 2 (authority.pending l)) ++
        [([2, 1, 0], .markh), ([2, 3], .savePath)]) := by
  have hfinal := (final_slashed l).trans hl
  have hnull : pathPart.nullable = true := by decide
  rw [front_eq, atSlashed, leave_seq_right, leave_alt_left, Machine.leave, pending_seq_mk, hfinal,
    hnull, Bool.and_true, if_pos rfl, pending_slashed, pending_none, under_nil, List.append_nil,
    pathPart_eq, skipped_span pathAbempty_silent]
  rfl

theorem leave_atPath (hl : pathAbempty.final l = true) :
    front.leave (atPath l) = [.savePath] := by
  rw [front_eq, atPath, leave_seq_right, leave_alt_left, leave_seq_right, Machine.leave,
    pathPart_eq, pending_span pathAbempty_silent, if_pos hl]
  rfl

end UriTransitions
