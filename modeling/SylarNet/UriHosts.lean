import SylarNet.UriAddresses
import SylarNet.UriRuns

/-!
# Runs through the authority

User information, host and port with what they leave in the variables. User information sets the
host too, to what stands before its first colon, and a digit behind this colon starts a port.
-/
namespace UriHosts

open RagelMachine UriGrammar UriParser UriTransitions UriAuthority UriRuns UriComponents
open UriLanguages UriAddresses SylarUri DecimalText

variable {done todo w : List UInt8} {l h : Live} {v v' : Variables} {c : UInt8}
  {acts : List (Embedded Action)}

/-- No character that leaves the authority or the user information. -/
def ordinary (c : UInt8) : Prop := c ≠ 64 ∧ c ≠ 47 ∧ c ≠ 63 ∧ c ≠ 35

instance (c : UInt8) : Decidable (ordinary c) :=
  inferInstanceAs (Decidable (c ≠ 64 ∧ c ≠ 47 ∧ c ≠ 63 ∧ c ≠ 35))

theorem char_ordinary : ∀ c : UInt8, (userinfoChar c = true → ordinary c) ∧
    (regNameChar c = true → ordinary c ∧ c ≠ 58) ∧
    (Http11Grammar.xdigit c = true → ordinary c ∧ c ≠ 58) ∧
    (addressChar c = true → ordinary c ∧ c ≠ 93) := by
  decide +kernel

theorem regName_ordinary {t : List UInt8} (h : Encoded regNameChar t) :
    ∀ c ∈ t, ordinary c ∧ c ≠ 58 :=
  encoded_forall (fun c => (char_ordinary c).2.1) (by decide) (fun c => (char_ordinary c).2.2.1) h

theorem userinfo_ordinary {t : List UInt8} (h : Encoded userinfoChar t) : ∀ c ∈ t, ordinary c :=
  encoded_forall (fun c => (char_ordinary c).1) (by decide)
    (fun c hc => ((char_ordinary c).2.2.1 hc).1) h

theorem move_auth (hslash : c ≠ 47) (hq : c ≠ 63) (hf : c ≠ 35) {l' : Live}
    (hstep : authority.step c false l = (l', acts)) :
    main.move c (auth l) = (auth l', inOrder acts) := by
  rw [auth, move_front hq hf, move_slashed hslash, move_authority, move_of_step hstep]
  rfl

theorem start_auth (hslash : c ≠ 47) (hq : c ≠ 63) (hf : c ≠ 35) {l' : Live}
    (hstarts : authority.starts c = true) (hstep : authority.step c true .none = (l', acts)) :
    main.move c (atFront (atSlashed slashes)) = (auth l', inOrder acts) := by
  rw [move_front hq hf, move_slashed hslash, move_slashes hslash hstarts, Machine.start, hstep]
  rfl

/-- Through a host, up to where a colon can be behind it. -/
theorem go_host (hw : ∀ u d t, w = u ++ d :: t →
      ordinary d ∧ (d = 58 → host.final (host.track false h u) = false)) :
    go done (auth (places (user l) h .none)) v (w ++ todo) =
      go (done ++ w) (auth (places (user (userinfo.track false l w)) (host.track false h w) .none))
        v todo := by
  induction w generalizing done l h with
  | nil =>
    rw [List.append_nil]
    rfl
  | cons c w ih =>
    obtain ⟨⟨hat, hslash, hq, hf⟩, hcolon⟩ := hw [] c w rfl
    have hstep : authority.step c false (places (user l) h .none) =
        (places (user (userinfo.step c false l).1) (host.step c false h).1 .none, []) := by
      by_cases heq : c = 58
      · subst heq
        exact step_host_colon (hcolon rfl) l
      · exact step_host hat heq l h
    have hmove := move_auth hslash hq hf hstep
    rw [List.cons_append, go_cons hmove (perform_nil _ _ v), ih, List.append_assoc]
    · rfl
    · intro u d t ht
      exact hw (c :: u) d t (congrArg (c :: ·) ht)

/-- Through digits behind a colon, or through user information there. -/
theorem go_digits (hw : ∀ d ∈ w, ordinary d) :
    go done (auth (places (user l) .none (.inside h))) v (w ++ todo) =
      go (done ++ w) (auth (places (user (userinfo.track false l w)) .none
        (.inside (port.track false h w)))) v todo := by
  induction w generalizing done l h with
  | nil =>
    rw [List.append_nil]
    rfl
  | cons c w ih =>
    rw [List.forall_mem_cons] at hw
    obtain ⟨⟨hat, hslash, hq, hf⟩, hw⟩ := hw
    have hstep := step_port hat l (.inside h)
    rw [portPart_eq, step_inside port_silent] at hstep
    have hmove := move_auth hslash hq hf hstep
    rw [List.cons_append, go_cons hmove (perform_nil _ _ v), ih hw, List.append_assoc]
    rfl

/-!
## From the slashes or an `@` into the host
-/

/-- Where a host starts with its mark. -/
def BeforeHost (start : Live) : Prop :=
  ∀ c, ordinary c → c ≠ 58 → host.starts c = true → ∃ l, (c = 91 → l = .none) ∧
    main.move c start = (auth (places (user l) (host.step c true .none).1 .none), [.markh])

theorem beforeHost_slashes : BeforeHost (atFront (atSlashed slashes)) := by
  rintro c ⟨hat, hslash, hq, hf⟩ hcolon hc
  have hstarts : authority.starts c = true := by
    have hhost : hostPart.starts c = true := hc
    simp [authority_eq, Machine.starts, hhost, userinfoPart_eq, Machine.nullable]
  refine ⟨(userinfo.step c true .none).1, ?_, ?_⟩
  · rintro rfl
    rfl
  · exact start_auth hslash hq hf hstarts (step_first hat hcolon hc)

theorem beforeHost_atSign : BeforeHost (auth (places atSign .none .none)) := by
  rintro c ⟨hat, hslash, hq, hf⟩ hcolon hc
  exact ⟨.none, fun _ => rfl, move_auth hslash hq hf (step_host_first hcolon hc)⟩

theorem go_host_from {start : Live} (hstart : BeforeHost start) (hc : ordinary c ∧ c ≠ 58)
    (hstarts : host.starts c = true) (hw : ∀ u d t, w = u ++ d :: t →
      ordinary d ∧ (d = 58 → host.final (host.reached (c :: u)) = false))
    (done : List UInt8) (v : Variables) (todo : List UInt8) :
    ∃ l, (c = 91 → l = .none) ∧ go done start v (c :: w ++ todo) =
      go (done ++ c :: w) (auth (places (user l) (host.reached (c :: w)) .none))
        ⟨some done.length, v.uri⟩ todo := by
  obtain ⟨l, hl, hmove⟩ := hstart c hc.1 hc.2 hstarts
  refine ⟨userinfo.track false l w, fun h => ?_, ?_⟩
  · rw [hl h, track_none]
  · rw [List.cons_append, go_cons hmove (perform_last rfl), go_host hw, List.append_assoc]
    rfl

/-- Inside the brackets nothing is a host yet. -/
theorem not_final_bracket {u : List UInt8} (hu : 93 ∉ u) :
    host.final (host.reached (91 :: u)) = false := by
  have hplain : host.plain = true := by decide
  rw [Bool.eq_false_iff, ne_eq, final_reached hplain (List.cons_ne_nil 91 u), bracket_mem_host,
    mem_ipLiteral]
  rintro ⟨w, -, heq⟩
  rw [(List.cons.inj heq).2] at hu
  exact hu (List.mem_append_right w (List.mem_singleton_self 93))

/-- Through a whole host. -/
theorem go_host_text {start : Live} (hstart : BeforeHost start) (t : Host) (done : List UInt8)
    (v : Variables) (todo : List UInt8) : ∃ l, (¬t.Plain → l = .none) ∧
      go done start v (t.text ++ todo) =
        go (done ++ t.text) (auth (places (user l) (host.reached t.text) .none))
          ⟨some done.length, v.uri⟩ todo := by
  cases t with
  | regName name hne =>
    obtain ⟨c, w, htext⟩ := List.exists_cons_of_ne_nil hne
    have hall := regName_ordinary name.encoded
    have hmem := (host_mem (.regName name hne)).2 trivial
    rw [Host.text, htext] at hmem
    rw [htext, List.forall_mem_cons] at hall
    have hword (u : List UInt8) (d : UInt8) (t : List UInt8) (ht : w = u ++ d :: t) :
        ordinary d ∧ (d = 58 → host.final (host.reached (c :: u)) = false) := by
      obtain ⟨hd, hcolon⟩ := hall.2 d (ht ▸ List.mem_append_right u List.mem_cons_self)
      exact ⟨hd, fun h => absurd h hcolon⟩
    obtain ⟨l, -, hgo⟩ := go_host_from hstart hall.1 (starts_of_mem hmem) hword done v todo
    rw [Host.text, htext]
    exact ⟨l, fun h => absurd trivial h, hgo⟩
  | ipv6 a =>
    have hword (u : List UInt8) (d : UInt8) (t : List UInt8) (ht : a.text ++ [93] = u ++ d :: t) :
        ordinary d ∧ (d = 58 → host.final (host.reached (91 :: u)) = false) := by
      have hd : d ∈ a.text ++ [93] := ht ▸ List.mem_append_right u List.mem_cons_self
      have hu : a.text = u ++ (d :: t).dropLast := by
        rw [← List.dropLast_append_of_ne_nil (List.cons_ne_nil d t), ← ht, List.dropLast_concat]
      constructor
      · rcases List.mem_append.1 hd with hd | hd
        · exact ((char_ordinary d).2.2.2 (ipv6_char a hd)).1
        · rw [List.mem_singleton.1 hd]
          decide
      · refine fun _ => not_final_bracket fun h => ?_
        have hmem : 93 ∈ a.text := hu ▸ List.mem_append_left _ h
        exact ((char_ordinary 93).2.2.2 (ipv6_char a hmem)).2 rfl
    obtain ⟨l, hl, hgo⟩ := go_host_from hstart (by decide : ordinary 91 ∧ (91 : UInt8) ≠ 58)
      (by decide) hword done v todo
    exact ⟨l, fun _ => hl rfl, hgo⟩

/-- A closing bracket is the last character of an address. -/
theorem closed_bracket (a : Ipv6) : ∃ k, (k = .here ∨ k = .none) ∧
    ipLiteral.reached (Host.ipv6 a).text = .mk .none k := by
  have hleft : (Machine.seq .plain (lit "[") (.alt ipv6address ipvFuture)).rejects 93 = true := by
    decide
  have htext : (Host.ipv6 a).text = 91 :: a.text ++ [93] := rfl
  rw [htext, reached_concat _ (List.cons_ne_nil _ _), ipLiteral_eq, step_seq,
    step_of_rejects hleft, step_chr]
  refine ⟨_, ?_, rfl⟩
  split
  · exact .inl rfl
  · exact .inr rfl

/-- A colon ends a host. -/
theorem host_dead (t : Host) : (host.step 58 false (host.reached t.text)).1 = .none := by
  have hrest : (Machine.alt ipv4address regName).rejects 58 = true := by decide
  have hliteral : (ipLiteral.step 58 false (ipLiteral.reached t.text)).1 = .none := by
    cases t with
    | regName name hne =>
      have hname : regName.rejects 91 = true := by decide
      have hstarts : ∀ c : UInt8, c ≠ 91 → ipLiteral.starts c = false := by decide +kernel
      obtain ⟨c, w, htext⟩ := List.exists_cons_of_ne_nil hne
      have hc : c ≠ 91 := by
        rintro rfl
        exact notMem_of_rejects hname (regName_mem name.encoded) (htext ▸ List.mem_cons_self)
      rw [Host.text, htext, reached_of_not_starts (by decide) (hstarts c hc), step_none]
    | ipv6 a =>
      obtain ⟨k, -, hk⟩ := closed_bracket a
      rw [hk, ipLiteral_eq, step_seq_right]
      rfl
  rw [host_eq, reached_alt, step_alt, Live.fst_mk, Live.snd_mk, step_of_rejects hrest, hliteral]
  rfl

/-- Of an address that the machine does not accept nothing is left behind its bracket. -/
theorem host_lost {t : Host} (ht : ¬t.Plain) : host.reached t.text = .none := by
  cases t with
  | regName name hne => exact absurd trivial ht
  | ipv6 a =>
    have hplain : host.plain = true := by decide
    have hrest : (Machine.alt ipv4address regName).reached (Host.ipv6 a).text = .none :=
      reached_of_not_starts (by decide) (by decide) _
    obtain ⟨k, hk, hreached⟩ := closed_bracket a
    have hhost : host.reached (Host.ipv6 a).text = .mk (.mk .none k) .none := by
      rw [host_eq, reached_alt, hreached, hrest]
    rcases hk with rfl | rfl
    · have hfinal : host.final (host.reached (Host.ipv6 a).text) = true := by
        rw [hhost]
        rfl
      have hmem := (final_reached hplain (List.cons_ne_nil _ _)).1 hfinal
      exact absurd ((host_mem (.ipv6 a)).1 hmem) ht
    · exact hhost

theorem host_final {t : Host} (ht : t.Plain) : host.final (host.reached t.text) = true := by
  have hplain : host.plain = true := by decide
  have hne : t.text ≠ [] := by
    cases t with
    | regName name hne => exact hne
    | ipv6 a => exact List.cons_ne_nil _ _
  exact (final_reached hplain hne).2 ((host_mem t).2 ht)

/-!
## The user information
-/

/-- What is left of user information. -/
def kept (w : List UInt8) : List UInt8 := if digitBehindColon w then behindColon w else w

theorem userinfo_final (hw : Encoded userinfoChar w) (hne : w ≠ []) :
    userinfo.final (userinfo.reached w) = true := by
  have hplain : userinfo.plain = true := by decide
  exact (final_reached hplain hne).2 (userinfo_mem hw)

/-- What may be a name as well. -/
theorem go_name (hw : Encoded regNameChar w) (hne : w ≠ []) (done : List UInt8) (v : Variables)
    (todo : List UInt8) : go done (atFront (atSlashed slashes)) v (w ++ todo) =
      go (done ++ w) (auth (places (user (userinfo.reached w)) (host.reached w) .none))
        ⟨some done.length, v.uri⟩ todo := by
  obtain ⟨c, w, rfl⟩ := List.exists_cons_of_ne_nil hne
  have hall := regName_ordinary hw
  rw [List.forall_mem_cons] at hall
  obtain ⟨⟨⟨hat, hslash, hq, hf⟩, hcolon⟩, hall⟩ := hall
  have hhost : hostPart.starts c = true :=
    starts_of_mem (mem_alt.2 (.inr (mem_alt.2 (.inr (regName_mem hw)))) : c :: w ∈ host.language)
  have hstarts : authority.starts c = true := by
    simp [authority_eq, Machine.starts, hhost, userinfoPart_eq, Machine.nullable]
  have hmove := start_auth hslash hq hf hstarts (step_first hat hcolon hhost)
  rw [List.cons_append, go_cons hmove (perform_last rfl), go_host, List.append_assoc]
  · rfl
  · intro u d t ht
    obtain ⟨hd, hcolon⟩ := hall d (ht ▸ List.mem_append_right u List.mem_cons_self)
    exact ⟨hd, fun h => absurd h hcolon⟩

theorem marked_drop (done todo : List UInt8) (m : ℕ) :
    marked (done ++ todo) done.length m = done.drop m := by
  rw [marked, List.take_left]

/-- The `@` takes what is behind the mark. -/
theorem go_at (hl : userinfo.final l = true) (h p : Live) (done : List UInt8) (m : ℕ) (u : Uri)
    (todo : List UInt8) : go done (auth (places (user l) h p)) ⟨some m, u⟩ (64 :: todo) =
      go (done ++ [64]) (auth (places atSign .none .none))
        ⟨none, { u with userinfo := done.drop m }⟩ todo := by
  have hmove := move_auth (by decide) (by decide) (by decide) (step_at hl h p)
  apply go_cons hmove
  apply perform_last
  rw [← marked_drop done (64 :: todo) m]
  rfl

theorem act_saveHost (text : List UInt8) (p m : ℕ) (u : Uri) :
    act text p ⟨some m, u⟩ .saveHost = .ok ⟨some m, { u with host := marked text p m }⟩ := rfl

/-- The first colon takes what is before it for a host. -/
theorem go_first_colon (hw : Encoded regNameChar w) (done : List UInt8) (u : Uri)
    (todo : List UInt8) : go done (atFront (atSlashed slashes)) ⟨none, u⟩ (w ++ 58 :: todo) =
      go (done ++ w ++ [58]) (auth (places (user (userinfo.reached (w ++ [58]))) .none .led))
        ⟨some done.length, { u with host := w }⟩ todo := by
  by_cases hne : w = []
  · subst hne
    have hmove : main.move 58 (atFront (atSlashed slashes)) =
        (auth (places (user (userinfo.reached [58])) .none .led), [.markh, .saveHost]) := by
      decide +kernel
    rw [List.nil_append, List.append_nil]
    apply go_cons hmove
    rw [perform_cons rfl]
    apply perform_last
    rw [act_saveHost, marked_self]
  · have ht : Host.Plain (.regName ⟨w, hw⟩ hne) := trivial
    have hmove := move_auth (by decide) (by decide) (by decide)
      (step_colon (host_final ht) (host_dead (.regName ⟨w, hw⟩ hne)) (userinfo.reached w))
    rw [go_name hw hne, reached_concat userinfo hne]
    apply go_cons hmove
    apply perform_last
    exact (act_saveHost _ _ _ _).trans (by rw [marked_word])

/-- Behind the first colon, where a digit moves the mark. -/
theorem go_behind_colon (hw : ∀ d ∈ w, ordinary d)
    (hl : userinfo.final (userinfo.track false l w) = true) (done : List UInt8) (m : ℕ) (u : Uri)
    (todo : List UInt8) :
    go done (auth (places (user l) .none .led)) ⟨some m, u⟩ (w ++ 64 :: todo) =
      go (done ++ w ++ [64]) (auth (places atSign .none .none)) ⟨none, { u with
        userinfo := (done ++ w).drop (if w.head?.any isDigit then done.length else m) }⟩ todo := by
  cases w with
  | nil =>
    rw [List.nil_append, List.append_nil]
    exact go_at hl _ _ done m u todo
  | cons c w =>
    rw [List.forall_mem_cons] at hw
    obtain ⟨⟨hat, hslash, hq, hf⟩, hw⟩ := hw
    have hstep := step_port hat l .led
    rw [portPart_eq, step_led port_silent] at hstep
    have hmove := move_auth hslash hq hf hstep
    have hdigit : port.starts c = isDigit c := rfl
    rw [hdigit, inOrder_under, inOrder_under, inOrder_under, inOrder_under] at hmove
    have hmark : perform (done ++ c :: (w ++ 64 :: todo)) done.length ⟨some m, u⟩
        (inOrder (if isDigit c then [([1, 0], Action.markh)] else [])) =
        .ok ⟨some (if isDigit c then done.length else m), u⟩ := by
      cases isDigit c <;> rfl
    rw [Machine.track] at hl
    rw [List.cons_append, go_cons hmove hmark, go_digits hw, go_at hl, List.append_cons done c w]
    rfl

/-- User information and the `@` behind it. -/
theorem go_userinfo (hw : Encoded userinfoChar w) (done : List UInt8) (u : Uri)
    (todo : List UInt8) : ∃ host',
      go done (atFront (atSlashed slashes)) ⟨none, u⟩ (w ++ 64 :: todo) =
        go (done ++ w ++ [64]) (auth (places atSign .none .none))
          ⟨none, { u with userinfo := kept w, host := host' }⟩ todo := by
  by_cases hcolon : 58 ∈ w
  · obtain ⟨before, after, rfl, hbefore⟩ := List.eq_append_cons_of_mem hcolon
    have hne : before ++ [58] ≠ [] :=
      List.append_ne_nil_of_right_ne_nil before (List.cons_ne_nil _ _)
    have hafter : ∀ d ∈ after, ordinary d := fun d hd =>
      userinfo_ordinary hw d (List.mem_append_right before (List.mem_cons_of_mem 58 hd))
    have hfinal : userinfo.final (userinfo.track false (userinfo.reached (before ++ [58])) after) =
        true := by
      rw [Machine.reached, ← track_append userinfo true .none hne, ← List.append_cons]
      exact userinfo_final hw (List.append_ne_nil_of_right_ne_nil before (List.cons_ne_nil _ _))
    have hbehind : behindColon (before ++ 58 :: after) = after := by
      rw [behindColon, cut_append hbefore]
      rfl
    refine ⟨before, ?_⟩
    rw [List.append_assoc, List.cons_append, go_first_colon (encoded_before_colon hw rfl hbefore),
      go_behind_colon hafter hfinal, kept, digitBehindColon, hbehind]
    have htext : done ++ before ++ [58] ++ after = done ++ (before ++ 58 :: after) := by simp
    split
    · rw [List.drop_left, htext]
    · rw [htext, List.drop_left]
  · have hkept : kept w = w := by
      rw [kept, digitBehindColon, behindColon, cut_of_not_mem hcolon]
      rfl
    refine ⟨u.host, ?_⟩
    by_cases hne : w = []
    · subst hne
      have hmove : main.move 64 (atFront (atSlashed slashes)) =
          (auth (places atSign .none .none), [.markh, .saveUserinfo]) := by
        decide +kernel
      have hsave : act (done ++ 64 :: todo) done.length ⟨some done.length, u⟩ .saveUserinfo =
          .ok ⟨none, { u with userinfo := [] }⟩ := by
        rw [← marked_self (done ++ 64 :: todo) done.length]
        rfl
      rw [List.nil_append, List.append_nil]
      apply go_cons hmove
      rw [perform_cons rfl]
      exact perform_last hsave
    · rw [go_name (encoded_no_colon hw hcolon) hne, go_at (userinfo_final hw hne), List.drop_left,
        hkept]

end UriHosts
