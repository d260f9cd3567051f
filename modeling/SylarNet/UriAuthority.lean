import SylarNet.RagelSpans
import SylarNet.UriGrammar

/-!
# The transitions inside the authority

Up to the `@` or the end of the authority its text may be user information and a host, from its
first colon on user information and a port. All of them have the pointer `mark` in common.
-/
namespace UriAuthority

open RagelMachine UriGrammar

theorem userinfoPart_eq : userinfoPart =
    .alt (.seq .plain (.embed .leaving userinfo .saveUserinfo) (.chr (· == 64))) .eps := rfl

theorem hostPart_eq : hostPart = host.span .markh .saveHost := rfl

theorem portPart_eq : portPart = port.led (· == 58) .markh .savePort := rfl

theorem authority_eq : authority =
    .embed .entering (.seq .plain (.seq .plain userinfoPart hostPart) portPart) .markh := rfl

theorem userinfo_silent : userinfo.silent = true := by decide
theorem host_silent : host.silent = true := by decide
theorem port_silent : port.silent = true := by decide

/-- In the user information. -/
def user (l : Live) : Live := .mk (.mk l .none) .none

/-- After the `@`. -/
def atSign : Live := .mk (.mk .none .here) .none

/-- In the authority, with its three parts. -/
def places (u h p : Live) : Live := .mk (.mk u h) p

variable {c : UInt8} {l h p : Live}

/-!
## The user information
-/

theorem step_user (hc : c ≠ 64) (enter : Bool) (l : Live) :
    userinfoPart.step c enter (user l) = (user (userinfo.step c enter l).1, []) := by
  have hat : (Machine.chr (· == 64) : Rule).starts c = false := beq_eq_false_iff_ne.2 hc
  rw [userinfoPart_eq, user, step_alt, Live.fst_mk, Live.snd_mk, step_eps,
    step_seq_left rfl hat, Machine.step, snd_step_of_silent userinfo_silent]
  rfl

theorem final_user (l : Live) : userinfoPart.final (user l) = false := by
  rw [userinfoPart_eq, user, final_alt_mk, final_seq_mk, final_none, final_none]
  rfl

theorem step_user_at (hl : userinfo.final l = true) :
    userinfoPart.step 64 false (user l) = (atSign, [([1, 1, 3], .saveUserinfo)]) := by
  have hreject : (Machine.embed .leaving userinfo Action.saveUserinfo).rejects 64 = true := by
    decide
  have hfinal : (Machine.embed .leaving userinfo Action.saveUserinfo).final l = true := hl
  rw [userinfoPart_eq, user, step_alt_left, step_seq_cross hfinal rfl, step_of_rejects hreject,
    Machine.pending, pending_of_silent userinfo_silent, if_pos hl]
  rfl

theorem step_atSign (c : UInt8) : userinfoPart.step c false atSign = (.none, []) := by
  rw [userinfoPart_eq, atSign, step_alt_left, step_seq_right]
  rfl

/-!
## The authority
-/

/-- The authority without its own action. -/
def body : Rule := .seq .plain (.seq .plain userinfoPart hostPart) portPart

theorem step_authority (l : Live) :
    authority.step c false l = ((body.step c false l).1, under 1 (body.step c false l).2) := rfl

theorem port_not_started (hc : c ≠ 58) : portPart.starts c = false :=
  led_not_starts (beq_eq_false_iff_ne.2 hc)

/-- The first character, of a host or of user information. -/
theorem step_first (hat : c ≠ 64) (hcolon : c ≠ 58) (hc : host.starts c = true) :
    authority.step c true .none =
      (places (user (userinfo.step c true .none).1) (host.step c true .none).1 .none,
        [([0], .markh), ([1, 1, 2, 1, 0], .markh)]) := by
  have hnone : (Live.none : Live) = .mk (.mk (user .none) .none) .none := rfl
  have hhost : hostPart.starts c = true := hc
  have hstarts : body.starts c = true := by
    simp [body, Machine.starts, hhost, userinfoPart_eq, Machine.nullable]
  have hcross : userinfoPart.crosses true (user .none) = true := rfl
  have hdepart : userinfoPart.departing true (user .none) = [] := rfl
  rw [authority_eq, ← body, Machine.step, hstarts, hnone, body,
    step_seq_left (by decide) (port_not_started hcolon), step_seq, Live.fst_mk, Live.snd_mk,
    step_user hat, hcross, hdepart, hostPart_eq, step_span host_silent, hc]
  simp
  rfl

theorem step_front (hat : c ≠ 64) (l h : Live) :
    (Machine.seq .plain userinfoPart hostPart).step c false (.mk (user l) h) =
      (.mk (user (userinfo.step c false l).1) (host.step c false h).1, []) := by
  rw [step_seq_inside (final_user l), step_user hat, hostPart_eq, step_span host_silent]
  rfl

theorem final_front (l h : Live) :
    (Machine.seq .plain userinfoPart hostPart).final (.mk (user l) h) = host.final h := by
  rw [final_seq_mk, final_user, Bool.and_false, Bool.or_false]
  rfl

theorem pending_front (l h : Live) :
    (Machine.seq .plain userinfoPart hostPart).pending (.mk (user l) h) =
      under 2 (if host.final h then [([3], .saveHost)] else []) := by
  rw [pending_seq_mk, final_user, Bool.and_false, hostPart_eq, pending_span host_silent]
  rfl

/-- In a host that may be user information as well. -/
theorem step_host (hat : c ≠ 64) (hcolon : c ≠ 58) (l h : Live) :
    authority.step c false (places (user l) h .none) =
      (places (user (userinfo.step c false l).1) (host.step c false h).1 .none, []) := by
  rw [step_authority, body, places, step_seq_left (by decide) (port_not_started hcolon),
    step_front hat]
  rfl

/-- Where there is no complete host, a colon is no other character. -/
theorem step_host_colon (hh : host.final h = false) (l : Live) :
    authority.step 58 false (places (user l) h .none) =
      (places (user (userinfo.step 58 false l).1) (host.step 58 false h).1 .none, []) := by
  have hfront := (final_front l h).trans hh
  rw [step_authority, body, places, step_seq_inside hfront, step_front (by decide), step_none]
  rfl

/-- The colon behind a host. -/
theorem step_colon (hh : host.final h = true) (hdead : (host.step 58 false h).1 = .none)
    (l : Live) :
    authority.step 58 false (places (user l) h .none) =
      (places (user (userinfo.step 58 false l).1) .none .led, [([1, 1, 2, 3], .saveHost)]) := by
  have hfront := (final_front l h).trans hh
  rw [step_authority, body, places, step_seq_cross hfront (by decide), step_front (by decide),
    pending_front, if_pos hh, hdead, portPart_eq, step_led_enter rfl]
  rfl

/-- Behind the first colon. -/
theorem step_port (hat : c ≠ 64) (l p : Live) :
    authority.step c false (places (user l) .none p) =
      (places (user (userinfo.step c false l).1) .none (portPart.step c false p).1,
        under 1 (under 2 (portPart.step c false p).2)) := by
  have hfront := (final_front l .none).trans final_none
  rw [step_authority, body, places, step_seq_inside hfront, step_front hat, step_none]
  rfl

/-- The `@` behind the user information. -/
theorem step_at (hl : userinfo.final l = true) (h p : Live) :
    authority.step 64 false (places (user l) h p) =
      (places atSign .none .none, [([1, 1, 1, 1, 1, 3], .saveUserinfo)]) := by
  have hhost : hostPart.rejects 64 = true := by decide
  have hport : portPart.rejects 64 = true := by decide
  rw [step_authority, body, places, step_seq, Live.fst_mk, Live.snd_mk, step_of_rejects hport,
    starts_of_rejects hport, step_seq, Live.fst_mk, Live.snd_mk, step_of_rejects hhost,
    starts_of_rejects hhost, step_user_at hl, Bool.and_false, Bool.and_false]
  rfl

/-- The first character of the host behind the `@`. -/
theorem step_host_first (hcolon : c ≠ 58) (hc : host.starts c = true) :
    authority.step c false (places atSign .none .none) =
      (places (user .none) (host.step c true .none).1 .none, [([1, 1, 2, 1, 0], .markh)]) := by
  have hcross : userinfoPart.crosses false atSign = true := rfl
  have hdepart : userinfoPart.departing false atSign = [] := rfl
  rw [step_authority, body, places, step_seq_left (by decide) (port_not_started hcolon), step_seq,
    Live.fst_mk, Live.snd_mk, step_atSign, hcross, hdepart, hostPart_eq, step_span host_silent, hc]
  simp
  rfl

/-!
## Leaving the authority
-/

theorem final_places_host (l h : Live) :
    authority.final (places (user l) h .none) = host.final h := by
  rw [authority_eq, Machine.final, places, final_seq_mk, final_front, final_none]
  rfl

theorem final_places_port (l p : Live) :
    authority.final (places (user l) .none p) = portPart.final p := by
  rw [authority_eq, Machine.final, places, final_seq_mk, final_front, final_none, Bool.and_false,
    Bool.or_false]

theorem pending_places_host (hh : host.final h = true) (l : Live) :
    authority.pending (places (user l) h .none) = [([1, 1, 2, 3], .saveHost)] := by
  rw [authority_eq, Machine.pending, places, pending_seq_mk, final_front, pending_front, hh,
    pending_none, portPart_eq, skipped_led]
  rfl

theorem pending_places_port (l p : Live) :
    authority.pending (places (user l) .none p) = under 1 (under 2 (portPart.pending p)) := by
  rw [authority_eq, Machine.pending, places, pending_seq_mk, final_front, final_none,
    Bool.and_false]
  rfl

end UriAuthority
