import Limn.Proofs.History
import Limn.Proofs.Line
import Limn.Command.Run

/-! # Access

A request to one of the four addresses that a token protects, which does not carry the token, is
turned away: the answer says nothing but that, and the session is not consulted. Whether a service
turns such requests away is decided by its token alone, and the empty token is the one that does not
protect anything (`Service.guarded_iff`). A service that a command starts has the token of the
command line as it stands there.

An open service answers the question in advance whether a method may be used from another origin.
That question never reaches an address, so its answer is set apart.
-/

namespace Limn

namespace Service

/-! ## Addresses -/

/-- The addresses that a token protects. -/
def addresses : List (String × Endpoint) :=
  [("/health", .health), ("/features", .features), ("/highlight", .highlight),
    ("/outline", .outline)]

theorem endpoint?_of_mem (s : Service) {path : String} {e : Endpoint}
    (h : (path, e) ∈ addresses) : s.endpoint? path = some e := by
  have hpath : ∀ a ∈ addresses, withoutLineFeed a.1 = a.1 := by decide
  unfold endpoint?
  rw [hpath _ h]
  simp only [addresses, List.mem_cons, List.not_mem_nil, Prod.mk.injEq, or_false] at h
  obtain ⟨rfl, rfl⟩ | ⟨rfl, rfl⟩ | ⟨rfl, rfl⟩ | ⟨rfl, rfl⟩ := h
  · rfl
  · rfl
  · rfl
  · rfl

theorem find?_of_mem (s : Service) {path : String} {e : Endpoint} (h : (path, e) ∈ addresses) :
    s.find? path = some e := by
  unfold find?
  rw [s.endpoint?_of_mem h]

/-! ## Requests without the token -/

/-- A request that leads to one of the addresses that a token protects. -/
def IsProtected (s : Service) (r : Request) : Prop :=
  ∃ e, s.find? r.path = some e ∧ e ≠ .page

/-- The answer `a` is given without regard to the session: nothing is asked of the grammars, nothing
is noted, and the session stays as it is. -/
def AnswersBlindly (s : Service) (answer : Service → Exchange) (a : Response) : Prop :=
  ∀ session, answer { s with session } = reply { s with session } a

/-- A request is turned away: it is answered blindly, and not with success unless it was a question
in advance. -/
def TurnsAway (s : Service) (r : Request) : Prop :=
  ∃ a, s.AnswersBlindly (·.answer r) a ∧ (a.status = 200 → s.preflight? r = some a)

/-- Whatever came before, a request to a protected address is turned away if its bearer credentials
are not the token. -/
def Guarded (s : Service) : Prop :=
  ∀ earlier r, s.IsProtected r → r.bearer? ≠ s.token → (s.after earlier).TurnsAway r

theorem admits_eq_false {s : Service} {token : String} (ht : s.token = some token)
    (hne : token ≠ "") {r : Request} (hr : r.bearer? ≠ some token) : s.admits r = false := by
  unfold admits
  rw [ht]
  split
  · contradiction
  · rename_i h
    exact absurd (Option.some.inj h) hne
  · rename_i t _ h
    obtain rfl : token = t := Option.some.inj h
    exact beq_eq_false_iff_ne.mpr hr

section Unadmitted

variable {s : Service} {r : Request} (h : s.admits r = false)
include h

theorem answerOrder_unadmitted (withFeatures : Bool) (work : Service → Order → Exchange) :
    ∃ a, a.status ≠ 200 ∧
      s.AnswersBlindly (fun t => t.answerOrder r withFeatures (work t)) a := by
  have hsession : ∀ session, admits { s with session } r = false := fun _ => h
  cases hc : r.content with
  | malformed =>
      refine ⟨unusable, by decide, fun session => ?_⟩
      simp only [answerOrder, hc]
  | unreadable =>
      refine ⟨unreadable, by decide, fun session => ?_⟩
      simp only [answerOrder, hc]
  | other =>
      refine ⟨refusal, by decide, fun session => ?_⟩
      simp only [answerOrder, hc, hsession, Bool.false_eq_true, if_false]
  | json v =>
      -- a body that is fit to be read is not looked at
      refine ⟨refusal, by decide, fun session => ?_⟩
      simp only [answerOrder, hc, hsession, Bool.not_false, if_true]

theorem answerAt_unadmitted {e : Endpoint} (he : e ≠ .page) :
    ∃ a, a.status ≠ 200 ∧ s.AnswersBlindly (·.answerAt r e) a := by
  have hsession : ∀ session, admits { s with session } r = false := fun _ => h
  cases e with
  | page => exact absurd rfl he
  | health =>
      refine ⟨refusal, by decide, fun session => ?_⟩
      simp only [answerAt, hsession, Bool.false_eq_true, if_false]
  | features =>
      refine ⟨refusal, by decide, fun session => ?_⟩
      simp only [answerAt, hsession, Bool.false_eq_true, if_false]
  | highlight => exact answerOrder_unadmitted h true highlightOrder
  | outline => exact answerOrder_unadmitted h false outlineOrder

theorem route_unadmitted (hr : s.IsProtected r) :
    ∃ a, a.status ≠ 200 ∧ s.AnswersBlindly (·.route r) a := by
  obtain ⟨e, hpath, he⟩ := hr
  have hfind : ∀ session, find? { s with session } r.path = some e := by
    intro session
    rw [find?_of_token (show ({ s with session } : Service).token = s.token from rfl), hpath]
  by_cases hmethod : e.methods.contains r.method
  · obtain ⟨a, hstatus, ha⟩ := answerAt_unadmitted h he
    refine ⟨a, hstatus, fun session => ?_⟩
    show route { s with session } r = _
    unfold route
    rw [hfind]
    exact (if_pos hmethod).trans (ha session)
  · refine ⟨{ status := 405 }, by decide, fun session => ?_⟩
    show route { s with session } r = _
    unfold route
    rw [hfind]
    exact if_neg hmethod

theorem turnsAway_of_unadmitted (hr : s.IsProtected r) : s.TurnsAway r := by
  cases hq : s.preflight? r with
  | some a =>
      refine ⟨a, fun session => ?_, fun _ => hq⟩
      show answer { s with session } r = _
      unfold answer
      rw [show preflight? { s with session } r = some a from hq]
  | none =>
      obtain ⟨a, hstatus, ha⟩ := route_unadmitted h hr
      by_cases hcors : s.cors
      · refine ⟨{ a with allowOrigin := r.header? "origin" }, fun session => ?_,
          fun h200 => absurd h200 hstatus⟩
        have hroute : route { s with session } r = reply { s with session } a := ha session
        show answer { s with session } r = _
        unfold answer
        rw [show preflight? { s with session } r = none from hq, hroute]
        exact if_pos hcors
      · refine ⟨a, fun session => ?_, fun h200 => absurd h200 hstatus⟩
        show answer { s with session } r = _
        unfold answer
        rw [show preflight? { s with session } r = none from hq]
        exact (if_neg hcors).trans (ha session)

end Unadmitted

theorem IsProtected.told {s : Service} {r : Request} (h : s.IsProtected r) (ranges : List Span) :
    (s.told ranges).IsProtected r := by
  obtain ⟨e, hfind, he⟩ := h
  refine ⟨e, ?_, he⟩
  rw [find?_of_token (show (s.told ranges).token = s.token from rfl), hfind]

theorem guarded_of_token {s : Service} {token : String} (ht : s.token = some token)
    (hne : token ≠ "") : s.Guarded := by
  intro earlier r hr hbearer
  obtain ⟨ranges, hafter⟩ := s.after_eq_told earlier
  rw [hafter]
  rw [ht] at hbearer
  have htold : (s.told ranges).token = some token := ht
  exact turnsAway_of_unadmitted (admits_eq_false htold hne hbearer) (hr.told ranges)

/-! ## The empty token -/

/-- A request for the state of a service, by somebody who carries nothing. -/
def bareRequest : Request :=
  { method := "GET", path := "/health" }

theorem preflight?_bareRequest (s : Service) : s.preflight? bareRequest = none := by
  have hmethod : (bareRequest.method != "OPTIONS") = true := by decide
  simp only [preflight?, hmethod, Bool.or_true, if_true]
  rfl

theorem answer_bareRequest {s : Service} (h : s.admits bareRequest = true) :
    ∃ a, a.status = 200 ∧ (s.answer bareRequest).response = .ok a := by
  have hfind : s.find? bareRequest.path = some .health := s.find?_of_mem (by decide)
  have hmethod : Endpoint.health.methods.contains bareRequest.method = true := by decide
  have hroute : s.route bareRequest =
      s.reply (success [("status", .text "ok"), ("version", .text version)]) := by
    unfold route
    rw [hfind]
    dsimp only
    rw [if_pos hmethod, answerAt, h, if_pos rfl]
  by_cases hcors : s.cors
  · refine ⟨{ success [("status", .text "ok"), ("version", .text version)] with
      allowOrigin := bareRequest.header? "origin" }, rfl, ?_⟩
    simp only [answer, preflight?_bareRequest, hroute, hcors, if_true]
    rfl
  · refine ⟨success [("status", .text "ok"), ("version", .text version)], rfl, ?_⟩
    simp only [answer, preflight?_bareRequest, hroute, hcors, Bool.false_eq_true, if_false]
    rfl

theorem not_guarded_of_empty {s : Service} (ht : s.token = some "") : ¬s.Guarded := by
  intro hguarded
  have hprotected : s.IsProtected bareRequest :=
    ⟨.health, s.find?_of_mem (by decide), by decide⟩
  have hbearer : bareRequest.bearer? ≠ s.token := by
    rw [ht]
    decide
  have hopen : s.admits bareRequest = true := by
    unfold admits
    rw [ht]
    rfl
  -- nothing came before, nothing is carried, and the answer is still a success
  obtain ⟨a, hblind, hstatus⟩ := hguarded [] bareRequest hprotected hbearer
  obtain ⟨b, h200, hanswer⟩ := answer_bareRequest hopen
  have hsame : Except.ok b = Except.ok a :=
    hanswer.symm.trans (congrArg Exchange.response (hblind s.session))
  obtain rfl : b = a := Except.ok.inj hsame
  have hquestion := hstatus h200
  rw [show (s.after []).preflight? bareRequest = none from s.preflight?_bareRequest] at hquestion
  contradiction

theorem guarded_iff {s : Service} {token : String} (ht : s.token = some token) :
    s.Guarded ↔ token ≠ "" := by
  constructor
  · intro hguarded hempty
    subst hempty
    exact not_guarded_of_empty ht hguarded
  · exact guarded_of_token ht

end Service

/-! ## Tokens of the command line -/

namespace Command

theorem serviceToken_plain (s : Surroundings) {token : String} (hauto : token ≠ "auto")
    (hnone : token ≠ "none") : serviceToken s token = ("", some token) := by
  unfold serviceToken
  split
  · contradiction
  · contradiction
  · rfl

theorem failure_started (verbose : Bool) (notices : List Notice) (e : Error) :
    (failure verbose notices e).started = none := by
  unfold failure
  dsimp only
  split
  · rfl
  · rfl

/-- What a command to serve starts is a session under the settings in force, with the token that its
word stands for. -/
theorem started_of_run {s : Surroundings} {i : Invocation} {host : String} {port : Int}
    {token : String} {cors : Bool} (htask : i.task = .serve host port token cors) {st : Started}
    (hst : (run s i).started = some st) :
    ∃ session, st = ⟨⟨session, (serviceToken s token).2, cors⟩, host, port⟩ := by
  unfold run at hst
  rw [htask] at hst
  cases hload : Settings.load s.files (i.config.map Path.ofText) with
  | error e =>
      rw [hload] at hst
      dsimp only at hst
      rw [failure_started] at hst
      contradiction
  | ok settings =>
      rw [hload] at hst
      dsimp only [serve] at hst
      cases hfault : s.serverFault with
      | some reason =>
          rw [hfault] at hst
          contradiction
      | none =>
          cases hstart : (Session.start settings s.grammars).result with
          | error e =>
              rw [hfault, hstart] at hst
              dsimp only at hst
              rw [failure_started] at hst
              contradiction
          | ok session =>
              rw [hfault, hstart] at hst
              exact ⟨session, (Option.some.inj hst).symm⟩

end Command

open Command in
/-- **The empty token is the only one that protects nothing.** A service with a token turns away
every request to its addresses that does not carry the token, whatever came before, unless the token
is empty; and a command line passes on every token but the two words with a meaning of their own. -/
theorem Service.only_empty_token_opens (token : String) :
    (∀ s : Service, s.token = some token → (s.Guarded ↔ token ≠ "")) ∧
      (token ≠ "auto" → token ≠ "none" →
        (∀ config, readLine (configWords config ++ ["serve", "--token=" ++ token]) =
          .ok ⟨config, false, .serve "127.0.0.1" 8766 token false⟩) ∧
        ∀ w i host port cors st, i.task = .serve host port token cors →
          (run w i).started = some st → st.service.token = some token) := by
  refine ⟨fun s ht => guarded_iff ht, fun hauto hnone => ⟨fun config => ?_, ?_⟩⟩
  · exact readLine_serve config token
  · intro w i host port cors st htask hst
    obtain ⟨session, rfl⟩ := started_of_run htask hst
    show (serviceToken w token).2 = some token
    rw [serviceToken_plain w hauto hnone]

/-- Surroundings without files, in which a session and a server can be started. -/
def Command.bareSurroundings : Command.Surroundings where
  files _ := .missing .notFound
  grammars _ := .loaded Session.shortRegions
  freshToken _ := "fresh"

/-- A request to highlight that carries another word than `secret`. -/
def Service.forgedRequest : Request where
  method := "POST"
  path := "/highlight"
  headers := [("Authorization", "Bearer Secret")]

open Command in
/-- A command starts a service that is open to other origins, under the token `secret`. It turns the
forged request away. -/
theorem Service.secret_is_needed :
    let i : Invocation := { task := .serve "localhost" 80 "secret" true }
    ∃ st, (run bareSurroundings i).started = some st ∧ st.service.token = some "secret" ∧
      st.service.TurnsAway forgedRequest := by
  intro i
  obtain ⟨st, hstarted⟩ : ∃ st, (run bareSurroundings i).started = some st :=
    Option.isSome_iff_exists.mp (by rfl)
  have hlaw := Service.only_empty_token_opens "secret"
  have htoken := (hlaw.2 (by decide) (by decide)).2 bareSurroundings i _ _ _ _ rfl hstarted
  refine ⟨st, hstarted, htoken, (hlaw.1 _ htoken).mpr (by decide) [] forgedRequest ?_ ?_⟩
  · exact ⟨.highlight, st.service.find?_of_mem (by decide), by decide⟩
  · rw [htoken]
    decide

end Limn
