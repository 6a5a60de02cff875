import Corebase.TokenLedger

namespace Corebase.EmailChange

open Interleaving AccountStore AccountFlows TokenLedger

/-- A sibling that has been spent is of the same proposal as the token that has just been spent, and a mail
to the current address goes to the address that the user has. -/
def Matched : Op → Store → Prop
  | .siblingConsumed u type own, s => s.siblingConsumed u type = true →
      ∃ t t', s.tokens u .emailChangeCurrent = some t ∧ s.tokens u .emailChangeNew = some t' ∧
        t.partner = some t'.secret ∧ (own = t.secret ∨ own = t'.secret)
  | .mail u x recipient, s => (∃ o, origin x s.history = some o ∧ o.type = .emailChangeCurrent) → s.email u = some recipient
  | _, _ => True

/-- One of the tokens was spent after the other, and X was the pending address then. -/
def Second (u : UserId) (current new : Secret) (X : Option Address) (past : List Event) : Prop :=
  ∃ later past' c type x was, past = later ++ .consumed c u type x was X :: past' ∧
    (x = current ∧ spender new past' ≠ none ∨ x = new ∧ spender current past' ≠ none)

/-- Both tokens of one proposal of X have been spent. -/
structure Confirmed (u : UserId) (X : Address) (current new : Secret) (past : List Event) : Prop where
  toCurrent : ∃ was, .issued u .emailChangeCurrent current (some X) (some new) was ∈ past
  toNew : ∃ was, .issued u .emailChangeNew new (some X) none was ∈ past
  second : Second u current new (some X) past

structure Inv (s : Store) : Prop where
  partner : ∀ u t n, s.tokens u .emailChangeCurrent = some t → t.partner = some n →
    ∃ was, origin n s.history = some ⟨u, .emailChangeNew, t.relatesTo, none, was⟩
  second : ∀ u t t', s.tokens u .emailChangeCurrent = some t → s.tokens u .emailChangeNew = some t' →
    t.partner = some t'.secret → t.usedAt ≠ none → t'.usedAt ≠ none → Second u t.secret t'.secret t'.relatesTo s.history
  mailed : ∀ x recipient was, .mailed x recipient was ∈ s.history → ∃ o, origin x s.history = some o ∧
    (o.type = .emailChangeNew → o.relatesTo = some recipient) ∧ (o.type = .emailChangeCurrent → was = some recipient)
  applied : ∀ later past u X, s.history = later ++ .applied u X :: past → ∃ current new, Confirmed u X current new past

structure Guar (s s' : Store) : Prop where
  grown : ∃ es, s'.history = es ++ s.history
  issued : ∀ x o, origin x s.history = some o → origin x s'.history = some o
  spent : ∀ x d, spender x s.history = some d → spender x s'.history = some d

def pairing : Discipline Client Store Op where
  Inv := Inv
  Guar _ := Guar
  Idle _ _ := True
  Allowed _ op s := Ledger s ∧ Matched op s

section Steps

variable {c : Client} {s s' : Store} {u : UserId} {X : Address} {current new x : Secret} {past es : List Event}

theorem Second.append {Y : Option Address} (h : Second u current new Y past) (es : List Event) :
    Second u current new Y (es ++ past) := by
  obtain ⟨later, past', d, type, y, was, rfl, hy⟩ := h
  exact ⟨es ++ later, past', d, type, y, was, (List.append_assoc ..).symm, hy⟩

theorem Confirmed.append (h : Confirmed u X current new past) (es : List Event) :
    Confirmed u X current new (es ++ past) := by
  obtain ⟨⟨was, hcurrent⟩, ⟨was', hnew⟩, hsecond⟩ := h
  exact ⟨⟨was, List.mem_append_right es hcurrent⟩, ⟨was', List.mem_append_right es hnew⟩, hsecond.append es⟩

/-- An event of the longer history is a new one, or stands where it stood. -/
theorem split_append {later before : List Event} {e : Event} (h : es ++ past = later ++ e :: before) :
    e ∈ es ∨ ∃ later', past = later' ++ e :: before := by
  rcases List.append_eq_append_iff.mp h with ⟨mid, rfl, hpast⟩ | ⟨mid, rfl, hbefore⟩
  · exact .inr ⟨mid, hpast⟩
  · cases mid with
    | nil => exact .inr ⟨[], by simpa using hbefore.symm⟩
    | cons e' mid =>
        cases hbefore
        exact .inl (by simp)

theorem guar_of (hL' : Ledger s') (hes : s'.history = es ++ s.history) : Guar s s' := by
  have hlawful := hL'.lawful
  rw [hes] at hlawful
  refine ⟨⟨es, hes⟩, fun y o ho => ?_, fun y d hd => ?_⟩
  · rw [hes]
    exact hlawful.origin_append ho
  · rw [hes]
    exact hlawful.spender_append hd

/-- What a statement leaves of the invariant that says nothing of mails and of addresses. -/
theorem inv_of (hI : Inv s) (hG : Guar s s') (hes : s'.history = es ++ s.history)
    (hmute : ∀ e ∈ es, (∀ y recipient was, e ≠ .mailed y recipient was) ∧ ∀ v Y, e ≠ .applied v Y)
    (hpartner : ∀ v t n, s'.tokens v .emailChangeCurrent = some t → t.partner = some n →
      ∃ was, origin n s'.history = some ⟨v, .emailChangeNew, t.relatesTo, none, was⟩)
    (hsecond : ∀ v t t', s'.tokens v .emailChangeCurrent = some t → s'.tokens v .emailChangeNew = some t' →
      t.partner = some t'.secret → t.usedAt ≠ none → t'.usedAt ≠ none →
      Second v t.secret t'.secret t'.relatesTo s'.history) : Inv s' := by
  refine ⟨hpartner, hsecond, fun y recipient was hmem => ?_, fun later before v Y hh => ?_⟩
  · rw [hes] at hmem
    rcases List.mem_append.mp hmem with hmem | hmem
    · exact absurd rfl ((hmute _ hmem).1 y recipient was)
    · obtain ⟨o, ho, hrest⟩ := hI.mailed y recipient was hmem
      exact ⟨o, hG.issued y o ho, hrest⟩
  · rcases split_append (hes.symm.trans hh) with hmem | ⟨later', hpast⟩
    · exact absurd rfl ((hmute _ hmem).2 v Y)
    · exact hI.applied later' before v Y hpast

/-- Tokens that are only dropped keep their part of the invariant. -/
theorem tokens_of (hI : Inv s) (hG : Guar s s') (htokens : ∀ {v type t}, s'.tokens v type = some t → s.tokens v type = some t) :
    (∀ v t n, s'.tokens v .emailChangeCurrent = some t → t.partner = some n →
      ∃ was, origin n s'.history = some ⟨v, .emailChangeNew, t.relatesTo, none, was⟩) ∧
    ∀ v t t', s'.tokens v .emailChangeCurrent = some t → s'.tokens v .emailChangeNew = some t' →
      t.partner = some t'.secret → t.usedAt ≠ none → t'.usedAt ≠ none →
      Second v t.secret t'.secret t'.relatesTo s'.history := by
  obtain ⟨es, hes⟩ := hG.grown
  refine ⟨fun v t n ht hn => ?_, fun v t t' ht ht' hp hu hu' => ?_⟩
  · obtain ⟨was, ho⟩ := hI.partner v t n (htokens ht) hn
    exact ⟨was, hG.issued n _ ho⟩
  · rw [hes]
    exact (hI.second v t t' (htokens ht) (htokens ht') hp hu hu').append es

theorem calm_keeps (hI : Inv s) (hL : Ledger s) (h : Calm s s') : Inv s' ∧ Guar s s' := by
  obtain ⟨es, hes, hmute⟩ := h.history
  have hG := guar_of (hL.calm h) hes
  obtain ⟨hpartner, hsecond⟩ := tokens_of hI hG h.tokens
  refine ⟨inv_of hI hG hes (fun e he => ?_) hpartner hsecond, hG⟩
  have := hmute e he
  exact ⟨fun y recipient was he => by simp [he, mute] at this, fun v Y he => by simp [he, mute] at this⟩

theorem issue_keeps (hI : Inv s) (hL : Ledger s) {type : TokenType} (relatesTo : Option Address)
    {partner : Option Secret} (hpartner : ∀ n, type = .emailChangeCurrent → partner = some n →
      ∃ was, origin n s.history = some ⟨u, .emailChangeNew, relatesTo, none, was⟩) :
    Inv (s.issueOneTimeToken u type relatesTo partner) ∧ Guar s (s.issueOneTimeToken u type relatesTo partner) := by
  have hG : Guar s (s.issueOneTimeToken u type relatesTo partner) :=
    guar_of (hL.issue u type relatesTo partner) (List.singleton_append ..).symm
  refine ⟨inv_of hI hG (List.singleton_append ..).symm (fun e he => ?_) (fun v t n ht hn => ?_)
    (fun v t t' ht ht' hp hu hu' => ?_), hG⟩
  · cases List.mem_singleton.mp he
    exact ⟨nofun, nofun⟩
  · rw [issue_tokens] at ht
    split at ht
    next hv =>
      obtain ⟨rfl, rfl⟩ := hv
      cases ht
      obtain ⟨was, ho⟩ := hpartner n rfl hn
      exact ⟨was, hG.issued n _ ho⟩
    next =>
      obtain ⟨was, ho⟩ := hI.partner v t n ht hn
      exact ⟨was, hG.issued n _ ho⟩
  · rw [issue_tokens] at ht ht'
    split at ht
    · cases ht
      exact absurd rfl hu
    split at ht'
    · cases ht'
      exact absurd rfl hu'
    · exact (hI.second v t t' ht ht' hp hu hu').append [_]

/-- The rows of two partners relate to the same address. -/
theorem partners_relate (hI : Inv s) (hL : Ledger s) {t t' : OneTimeToken} (ht : s.tokens u .emailChangeCurrent = some t)
    (ht' : s.tokens u .emailChangeNew = some t') (hp : t.partner = some t'.secret) : t.relatesTo = t'.relatesTo := by
  obtain ⟨was, ho⟩ := hI.partner u t _ ht hp
  obtain ⟨was', ho'⟩ := hL.origin u _ t' ht'
  exact congrArg Origin.relatesTo (Option.some.inj (ho.symm.trans ho'))

theorem spend_keeps (hI : Inv s) (hL : Ledger s) {type : TokenType} {t : OneTimeToken} (ht : s.tokens u type = some t)
    (hunused : t.usedAt = none) : Inv (s.spend c u type t.secret) ∧ Guar s (s.spend c u type t.secret) := by
  have hhistory : (s.spend c u type t.secret).history =
      .consumed c u type t.secret (s.email u) (s.pendingEmailChange u) :: s.history := rfl
  have hG : Guar s (s.spend c u type t.secret) := guar_of (hL.spend c ht hunused) (List.singleton_append ..).symm
  have hpending : ∀ t₁ t₂, s.tokens u .emailChangeCurrent = some t₁ → s.tokens u .emailChangeNew = some t₂ →
      t₁.partner = some t₂.secret → s.pendingEmailChange u = t₂.relatesTo := by
    intro t₁ t₂ h₁ h₂ hp
    simp only [Store.pendingEmailChange, h₁, h₂, partners_relate hI hL h₁ h₂ hp, ite_self]
  refine ⟨inv_of hI hG (List.singleton_append ..).symm (fun e he => ?_) (fun v t₁ n h₁ hn => ?_)
    (fun v t₁ t₂ h₁ h₂ hp hu₁ hu₂ => ?_), hG⟩
  · cases List.mem_singleton.mp he
    exact ⟨nofun, nofun⟩
  · rw [spend_tokens] at h₁
    split at h₁
    next hv =>
      obtain ⟨rfl, rfl⟩ := hv
      rw [ht] at h₁
      cases h₁
      obtain ⟨was, ho⟩ := hI.partner v t n ht hn
      exact ⟨was, hG.issued n _ ho⟩
    next =>
      obtain ⟨was, ho⟩ := hI.partner v t₁ n h₁ hn
      exact ⟨was, hG.issued n _ ho⟩
  · rw [spend_tokens] at h₁ h₂
    rw [hhistory]
    split at h₁
    next hv =>
      -- the token to the current address is spent as the second one
      obtain ⟨rfl, rfl⟩ := hv
      rw [if_neg nofun] at h₂
      rw [ht] at h₁
      cases h₁
      have hother : spender t₂.secret s.history ≠ none := fun hn => hu₂ ((hL.spender v _ t₂ h₂).mpr hn)
      rw [hpending t t₂ ht h₂ hp]
      exact ⟨[], _, _, _, _, _, rfl, .inl ⟨rfl, hother⟩⟩
    next hv =>
      split at h₂
      next hv' =>
        obtain ⟨rfl, rfl⟩ := hv'
        rw [ht] at h₂
        cases h₂
        have hother : spender t₁.secret s.history ≠ none := fun hn => hu₁ ((hL.spender v _ t₁ h₁).mpr hn)
        rw [hpending t₁ t h₁ ht hp]
        exact ⟨[], _, _, _, _, _, rfl, .inr ⟨rfl, hother⟩⟩
      next => exact (hI.second v t₁ t₂ h₁ h₂ hp hu₁ hu₂).append [_]

theorem meet_keeps (hI : Inv s') (hG : Guar s s') (v : UserId) : Inv (s'.meet c v) ∧ Guar s (s'.meet c v) :=
  ⟨⟨hI.partner, hI.second, hI.mailed, hI.applied⟩, hG.grown, hG.issued, hG.spent⟩

/-- The token has been issued to this address. -/
def Sent (x : Secret) (recipient : Option Address) (s : Store) : Prop :=
  ∃ o, origin x s.history = some o ∧ (o.type = .emailChangeNew → o.relatesTo = recipient)

theorem mail_keeps (hI : Inv s) (hL : Ledger s) {recipient : Address} (h : Sent x (some recipient) s)
    (hok : Matched (.mail u x recipient) s) :
    Inv (s.log (.mailed x recipient (s.email u))) ∧ Guar s (s.log (.mailed x recipient (s.email u))) := by
  have hG : Guar s (s.log (.mailed x recipient (s.email u))) := guar_of (hL.log rfl) (List.singleton_append ..).symm
  obtain ⟨hpartner, hsecond⟩ := tokens_of hI hG id
  refine ⟨⟨hpartner, hsecond, fun y recipient' was hmem => ?_, fun later before v Y hh => ?_⟩, hG⟩
  · rcases List.mem_cons.mp hmem with he | hmem
    · cases he
      obtain ⟨o, ho, hnew⟩ := h
      exact ⟨o, hG.issued x o ho, hnew, fun hcurrent => hok ⟨o, ho, hcurrent⟩⟩
    · obtain ⟨o, ho, hrest⟩ := hI.mailed y recipient' was hmem
      exact ⟨o, hG.issued y o ho, hrest⟩
  · rcases split_append (show [_] ++ s.history = _ from hh) with hmem | ⟨later', hpast⟩
    · cases List.mem_singleton.mp hmem
    · exact hI.applied later' before v Y hpast

theorem apply_keeps (hI : Inv s) (hL' : Ledger (s.applyEmailChange u X))
    (h : ∃ current new, Confirmed u X current new s.history) :
    Inv (s.applyEmailChange u X) ∧ Guar s (s.applyEmailChange u X) := by
  have hG : Guar s (s.applyEmailChange u X) := guar_of hL' (List.singleton_append ..).symm
  obtain ⟨hpartner, hsecond⟩ := tokens_of hI hG id
  refine ⟨⟨hpartner, hsecond, fun y recipient was hmem => ?_, fun later before v Y hh => ?_⟩, hG⟩
  · obtain ⟨o, ho, hrest⟩ := hI.mailed y recipient was ((List.mem_cons.mp hmem).resolve_left nofun)
    exact ⟨o, hG.issued y o ho, hrest⟩
  · cases later with
    | nil =>
        cases hh
        exact h
    | cons e later =>
        exact hI.applied later before v Y (List.cons.inj hh).2

end Steps

section Programs

variable (config : Config) (c : Client) {u : UserId} {x : Secret}

/-- A statement that by itself keeps the discipline. -/
def calm : Op → Prop
  | .issueOneTimeToken _ type .. => type ≠ .emailChangeCurrent
  | .mail .. | .applyEmailChange .. => False
  | _ => True

theorem keeps_statement (chance : Chance) (op : Op) (s : Store) (r : Reply op) (s' : Store) (hop : calm op) (hI : Inv s)
    (hok : Ledger s ∧ Matched op s) (hexec : exec c chance op s = some (r, s')) : Inv s' ∧ Guar s s' := by
  cases exec_effect hexec with
  | calm h => exact calm_keeps hI hok.1 h
  | mail v y recipient he =>
      subst he
      exact hop.elim
  | apply v email he =>
      subst he
      exact hop.elim
  | issue v type relatesTo partner he hs =>
      subst he hs
      exact issue_keeps hI hok.1 relatesTo fun n htype => absurd htype hop
  | spend v type t ht hunused hs =>
      obtain ⟨hinv, hG⟩ := spend_keeps (c := c) hI hok.1 ht hunused
      rcases hs with rfl | rfl
      · exact ⟨hinv, hG⟩
      · exact meet_keeps hinv hG v

theorem meets_only {p : Program Op Reply} (hp : p.Only calm) (Q : Store → Prop) :
    pairing.Meets (accounts config) c p Q :=
  Discipline.Meets.of_only hp (fun _ _ => trivial) (fun chance op s r s' => keeps_statement c chance op s r s') Q

theorem meets_answer (a : Answer) (Q : Store → Prop) : pairing.Meets (accounts config) c (answer a) Q :=
  meets_only config c (show (answer a).Only calm from ⟨trivial, fun _ => trivial⟩) Q

/-- A statement that by itself keeps the discipline, before what is to follow from nothing. -/
theorem meets_calm {op : Op} {next : Reply op → Program Op Reply} {Q : Store → Prop} (hop : calm op)
    (hnext : ∀ r, pairing.Meets (accounts config) c (next r) fun _ => True) :
    pairing.Meets (accounts config) c (.step op next) Q := by
  intro s chance r s' hI _ hok hexec
  obtain ⟨hinv, hG⟩ := keeps_statement c chance op s r s' hop hI hok hexec
  exact ⟨hinv, hG, _, Discipline.stable_true, trivial, hnext r⟩

/-- What is said of the origins of tokens stays so. -/
theorem origin_stable {P : Origin → Prop} : pairing.Stable c fun s => ∃ o, origin x s.history = some o ∧ P o := by
  rintro d - s s' - hG ⟨o, ho, hP⟩
  exact ⟨o, hG.issued x o ho, hP⟩

theorem meets_sendMail {recipient : Option Address} {next : Program Op Reply} {R : Store → Prop} (hR : pairing.Stable c R)
    (hkeep : ∀ s s', Guar s s' → R s → R s') (hnext : pairing.Meets (accounts config) c next R) :
    pairing.Meets (accounts config) c (sendMail u x recipient next) fun s => Sent x recipient s ∧ R s := by
  cases recipient with
  | none => exact hnext.mono fun _ _ h => h.2
  | some recipient =>
      intro s chance r s' hI hQ hok hexec
      suffices h : Inv s' ∧ Guar s s' from ⟨h.1, h.2, _, hR, hkeep s s' h.2 hQ.2, hnext⟩
      have hsame : Inv s ∧ Guar s s := calm_keeps hI hok.1 (.refl s)
      cases chance <;> cases hexec
      · exact mail_keeps hI hok.1 hQ.1 hok.2
      · exact hsame
      · exact hsame

/-- The token has been issued for this side of a proposal. -/
def Issued (x : Secret) (u : UserId) (type : TokenType) (X : Option Address) (partner : Option Secret) (s : Store) : Prop :=
  ∃ o, origin x s.history = some o ∧ o.userId = u ∧ o.type = type ∧ o.relatesTo = X ∧ o.partner = partner

theorem Issued.grow {s s' : Store} {type : TokenType} {X : Option Address} {partner : Option Secret} (hG : Guar s s')
    (h : Issued x u type X partner s) : Issued x u type X partner s' := by
  obtain ⟨o, ho, hrest⟩ := h
  exact ⟨o, hG.issued x o ho, hrest⟩

theorem Issued.origin {s : Store} {type : TokenType} {X : Option Address} {partner : Option Secret}
    (h : Issued x u type X partner s) : ∃ was, TokenLedger.origin x s.history = some ⟨u, type, X, partner, was⟩ := by
  obtain ⟨⟨u, type, X, partner, was⟩, ho, rfl, rfl, rfl, rfl⟩ := h
  exact ⟨was, ho⟩

/-- A token is issued, to the current side of a proposal only after the new side, and mailed. -/
theorem meets_issue {type : TokenType} {relatesTo recipient : Option Address} {partner : Option Secret} {Q : Store → Prop}
    {next : Secret → Program Op Reply} (hto : type = .emailChangeNew → relatesTo = recipient)
    (hpartner : ∀ n, type = .emailChangeCurrent → partner = some n → ∀ s, Q s → Issued n u .emailChangeNew relatesTo none s)
    (hnext : ∀ x, pairing.Meets (accounts config) c (next x) (Issued x u type relatesTo partner)) :
    pairing.Meets (accounts config) c
      (.step (.issueOneTimeToken u type relatesTo partner) fun x => sendMail u x recipient (next x)) Q := by
  intro s chance r s' hI hQ hok hexec
  cases hexec
  obtain ⟨hinv, hG⟩ := issue_keeps (u := u) hI hok.1 relatesTo fun n ht hn => (hpartner n ht hn s hQ).origin
  have ho : TokenLedger.origin s.nextSecret (s.issueOneTimeToken u type relatesTo partner).history =
      some ⟨u, type, relatesTo, partner, s.email u⟩ := origin_issued.trans (if_pos rfl)
  have hmail : pairing.Meets (accounts config) c (sendMail u s.nextSecret recipient (next s.nextSecret)) _ :=
    meets_sendMail config c (origin_stable c) (fun _ _ hG h => Issued.grow hG h) (hnext s.nextSecret)
  exact ⟨hinv, hG, _, (origin_stable c).and (origin_stable c), ⟨⟨_, ho, hto⟩, _, ho, rfl, rfl, rfl, rfl⟩, hmail⟩

theorem meets_sendConfirmation {recipient : Option Address} (Q : Store → Prop) :
    pairing.Meets (accounts config) c (sendConfirmation u recipient) Q :=
  meets_issue config c nofun nofun fun _ => meets_answer config c _ _

theorem meets_signup (email : Address) (password : Password) :
    pairing.Meets (accounts config) c (signup config email password) fun _ => True := by
  refine meets_calm config c (by trivial) ?_
  rintro (_ | v)
  · refine meets_calm config c (by trivial) ?_
    rintro (_ | ⟨v, y⟩)
    · exact meets_answer config c _ _
    · dsimp only
      split
      · exact meets_sendConfirmation config c _
      · exact meets_answer config c _ _
  · dsimp only
    split
    · exact meets_only config c (show (issueSession _ _).Only calm from ⟨trivial, fun _ => ⟨trivial, fun _ => trivial⟩⟩) _
    · exact meets_sendConfirmation config c _

theorem meets_recover (email : Address) : pairing.Meets (accounts config) c (recover email) fun _ => True := by
  refine meets_calm config c (by trivial) ?_
  rintro (_ | ⟨v, y⟩)
  · exact meets_answer config c _ _
  · exact meets_issue config c nofun nofun fun _ => meets_answer config c _ _

theorem meets_resend (email : Address) : pairing.Meets (accounts config) c (resend email) fun _ => True := by
  refine meets_calm config c (by trivial) ?_
  rintro (_ | ⟨v, y⟩)
  · exact meets_answer config c _ _
  · dsimp only
    split
    · exact meets_answer config c _ _
    · exact meets_sendConfirmation config c _

theorem meets_putEmail (bearer : Bearer) (user : User) (email : Option Address) (a : Answer) (Q : Store → Prop) :
    pairing.Meets (accounts config) c (putEmail config bearer user email a) Q := by
  unfold putEmail
  split
  · exact meets_answer config c _ _
  split
  · exact meets_answer config c _ _
  · refine meets_issue config c (fun _ => rfl) nofun fun new => ?_
    split
    · refine meets_issue config c nofun (fun n _ hn s hQ => ?_) fun _ => meets_answer config c _ _
      exact Option.some.inj hn ▸ hQ
    · exact meets_only config c (show Program.Only calm (.step (.clearCurrentToken _) fun _ => answer a) from
        ⟨trivial, fun _ => ⟨trivial, fun _ => trivial⟩⟩) _

theorem meets_putUser (bearer : Bearer) (body : UserBody) :
    pairing.Meets (accounts config) c (putUser config bearer body) fun _ => True := by
  refine meets_calm config c (by trivial) ?_
  rintro (_ | _)
  · exact meets_answer config c _ _
  refine meets_calm config c (by trivial) ?_
  rintro (_ | user)
  · exact meets_answer config c _ _
  dsimp only
  split
  · exact meets_putEmail config c _ _ _ _ _
  split
  · exact meets_answer config c _ _
  refine meets_calm config c (by trivial) ?_
  intro old
  refine meets_calm config c (by trivial) ?_
  intro _
  exact meets_putEmail config c _ _ _ _ _

/-- The change of the address is completed from what has been confirmed. -/
theorem meets_complete (X : Address) : pairing.Meets (accounts config) c (completeEmailChange u X)
    fun s => ∃ current new, Confirmed u X current new s.history := by
  intro s chance r s' hI hQ hok hexec
  have hL' := hok.1.exec (show exec c chance (.applyEmailChange u X) s = _ from hexec)
  suffices h : Inv s' ∧ Guar s s' by
    refine ⟨h.1, h.2, _, Discipline.stable_true, trivial, ?_⟩
    cases r with
    | false => exact meets_only config c (by exact ⟨trivial, fun _ => ⟨trivial, fun _ => trivial⟩⟩) _
    | true => exact meets_only config c (by exact ⟨trivial, fun _ => ⟨trivial, fun _ => ⟨trivial, fun _ => trivial⟩⟩⟩) _
  simp only [accounts, exec] at hexec
  split at hexec <;> cases hexec
  · exact apply_keeps hI hL' hQ
  · exact calm_keeps hI hok.1 (.refl s)

/-- The client has spent this side of a proposal. -/
def Half (c : Client) (x : Secret) (u : UserId) (type : TokenType) (X : Address) (s : Store) : Prop :=
  spender x s.history = some c ∧ ∃ o, origin x s.history = some o ∧ o.userId = u ∧ o.type = type ∧ o.relatesTo = some X

theorem half_stable {type : TokenType} {X : Address} : pairing.Stable c (Half c x u type X) := by
  rintro d - s s' - hG ⟨hc, o, ho, hrest⟩
  exact ⟨hG.spent x c hc, o, hG.issued x o ho, hrest⟩

theorem type_of_secret {s : Store} (hL : Ledger s) {v : UserId} {type : TokenType} {t : OneTimeToken} {o : Origin}
    (ht : s.tokens v type = some t) (ho : origin t.secret s.history = some o) :
    o.userId = v ∧ o.type = type ∧ o.relatesTo = t.relatesTo := by
  obtain ⟨was, hown⟩ := hL.origin v type t ht
  cases hown.symm.trans ho
  exact ⟨rfl, rfl, rfl⟩

/-- A spent sibling of the token that the client has spent confirms the change. -/
theorem confirmed_of_sibling {s : Store} (hI : Inv s) (hL : Ledger s) {type : TokenType} {X : Address}
    (hhalf : Half c x u type X s) (hok : Matched (.siblingConsumed u (sibling type) x) s)
    (hsibling : s.siblingConsumed u (sibling type) = true) : ∃ current new, Confirmed u X current new s.history := by
  obtain ⟨t, t', ht, ht', hp, hown⟩ := hok hsibling
  obtain ⟨hspent, o, ho, huser, htype, hX⟩ := hhalf
  have hrelates := partners_relate hI hL ht ht' hp
  obtain ⟨was, hcurrent⟩ := hL.origin u _ t ht
  obtain ⟨was', hnew⟩ := hI.partner u t _ ht hp
  have hused : ∀ {type t}, s.tokens u type = some t → t.secret = x → t.usedAt ≠ none := by
    intro type t ht hx hn
    have hnone := (hL.spender u type t ht).mp hn
    rw [hx, hspent] at hnone
    cases hnone
  have hother : ∀ {type t}, s.siblingConsumed u type = true → s.tokens u type = some t → t.usedAt ≠ none := by
    intro type t hs ht hn
    rw [Store.siblingConsumed, ht] at hs
    simp [hn] at hs
  suffices h : t.relatesTo = some X ∧ t.usedAt ≠ none ∧ t'.usedAt ≠ none by
    obtain ⟨htX, hu, hu'⟩ := h
    have htX' := hrelates ▸ htX
    refine ⟨t.secret, t'.secret, ⟨was, ?_⟩, ⟨was', ?_⟩, htX' ▸ hI.second u t t' ht ht' hp hu hu'⟩
    · rw [htX, hp] at hcurrent
      exact origin_mem hcurrent
    · rw [htX] at hnew
      exact origin_mem hnew
  rcases hown with rfl | rfl
  · obtain ⟨-, hcurrentType, hr⟩ := type_of_secret hL ht ho
    obtain rfl := hcurrentType.symm.trans htype
    exact ⟨hr.symm.trans hX, hused ht rfl, hother hsibling ht'⟩
  · obtain ⟨-, hnewType, hr⟩ := type_of_secret hL ht' ho
    obtain rfl := hnewType.symm.trans htype
    exact ⟨hrelates.trans (hr.symm.trans hX), hother hsibling ht, hused ht' rfl⟩

theorem meets_verifyEmailChange (hdouble : config.double = true) (x : Secret) :
    pairing.Meets (accounts config) c (verifyEmailChange config x) fun _ => True := by
  intro s chance r s' hI _ hok hexec
  obtain ⟨hinv, hG⟩ := keeps_statement c chance (.consumeEitherToken x) s r s' trivial hI hok hexec
  suffices h : ∀ v X type, r = some (v, some X, type) → Half c x v type X s' by
    rcases r with _ | ⟨v, _ | X, type⟩
    · exact ⟨hinv, hG, _, Discipline.stable_true, trivial, meets_answer config c _ _⟩
    · exact ⟨hinv, hG, _, Discipline.stable_true, trivial, meets_answer config c _ _⟩
    refine ⟨hinv, hG, _, half_stable c, h v X type rfl, ?_⟩
    dsimp only
    rw [if_pos hdouble]
    intro s chance r s' hI hQ hok hexec
    cases hexec
    obtain ⟨hinv, hG⟩ := calm_keeps hI hok.1 (.refl s)
    cases hs : s.siblingConsumed v (sibling type) with
    | false => exact ⟨hinv, hG, _, Discipline.stable_true, trivial, meets_answer config c _ _⟩
    | true =>
        have hconfirmed := confirmed_of_sibling c hI hok.1 hQ hok.2 hs
        refine ⟨hinv, hG, _, fun _ _ s s' _ hG h => ?_, hconfirmed, meets_complete config c X⟩
        obtain ⟨es, hes⟩ := hG.grown
        obtain ⟨current, new, h⟩ := h
        exact ⟨current, new, hes ▸ h.append es⟩
  have hspend : ∀ v type t, s.tokens v type = some t → t.secret = x → ∀ X, t.relatesTo = some X →
      Half c x v type X (s.spend c v type x) := by
    rintro v type t ht rfl X hX
    obtain ⟨was, hown⟩ := hok.1.origin v type t ht
    exact ⟨spender_consumed.trans (if_pos rfl), _, hown, rfl, rfl, hX⟩
  simp only [accounts, exec] at hexec
  split at hexec <;> cases hexec
  next _ _ v hspent =>
    obtain ⟨-, t, ht, hx, -⟩ := consumeOneTimeToken_some hspent
    intro w X type he
    simp only [ht, Option.bind_some, Option.some.injEq, Prod.mk.injEq] at he
    obtain ⟨rfl, hX, rfl⟩ := he
    exact hspend v _ t ht hx X hX
  next _ _ v _ hspent =>
    obtain ⟨-, t, ht, hx, -⟩ := consumeOneTimeToken_some hspent
    intro w X type he
    simp only [ht, Option.bind_some, Option.some.injEq, Prod.mk.injEq] at he
    obtain ⟨rfl, hX, rfl⟩ := he
    exact hspend v _ t ht hx X hX
  next =>
    intro w X type he
    cases he

theorem sound (hdouble : config.double = true) : pairing.Sound (accounts config) where
  idle _ := Discipline.stable_true
  abort c s hI _ := ⟨hI, ⟨⟨[], rfl⟩, fun _ _ => id, fun _ _ => id⟩, trivial⟩
  program c q := by
    by_cases hq : ∀ op, uses q op → calm op
    · exact meets_only config c ((program_uses config q).mono hq) _
    · cases q with
      | signup email password => exact meets_signup config c email password
      | recover email => exact meets_recover config c email
      | resend email => exact meets_resend config c email
      | putUser bearer body => exact meets_putUser config c bearer body
      | verifyEmailChange x => exact meets_verifyEmailChange config c hdouble x
      | passwordGrant | verify | refresh | logout | deleteSession | adminCreate | adminUpdate | adminDelete | tick =>
          refine absurd (fun op hop => ?_) hq
          cases op with
          | issueOneTimeToken | mail | applyEmailChange => exact hop.elim
          | _ => trivial

end Programs

theorem inv_opened (rows : List User) : Inv (.opened rows) := by
  have hstored : ∀ e ∈ (Store.opened rows).history, ∃ u p, e = .stored u p := by
    intro e he
    obtain ⟨u, p, rfl, -⟩ := stored_opened he
    exact ⟨u, p, rfl⟩
  refine ⟨fun _ _ _ ht => (nomatch ht), fun _ _ _ ht => (nomatch ht), fun x recipient was hmem => ?_, fun later past u X hh => ?_⟩
  · obtain ⟨u, p, he⟩ := hstored _ hmem
    cases he
  · obtain ⟨v, p, he⟩ := hstored (.applied u X) (by rw [hh]; simp)
    cases he

/-- In a run of a project with double confirmation where a sibling that is found spent is of the proposal of
the token that has just been spent, and a mail to the current address goes to the address that the user has: a user
gets an address X only after both tokens of one proposal of X have been spent, the one to X and the one to
the address that the user had, and X was the pending address when the second one was. -/
theorem change_confirmed {config : AccountFlows.Config} (hdouble : config.double = true) {rows : List User}
    {g : Interleaving.Config Client Store Op Reply}
    (h : (accounts config).Reachable (Protocol.Statements fun _ => Matched) (.opened rows) g)
    {later past : List Event} {u : UserId} {X : Address} (hh : g.store.history = later ++ .applied u X :: past) :
    ∃ current new, Confirmed u X current new past ∧
      (∀ recipient was, .mailed new recipient was ∈ g.store.history → recipient = X) ∧
      ∀ recipient was, .mailed current recipient was ∈ g.store.history → was = some recipient := by
  have hgrants : pairing.Grants fun (g : Interleaving.Config Client Store Op Reply) (m : Move Client Chance Request) =>
      Protocol.Statements (fun _ => Matched) g m ∧ Ledger g.store :=
    ⟨fun _ c choice op next hr hok => ⟨hok.2, hok.1 c choice op next rfl hr⟩, fun _ _ _ => trivial⟩
  have hholds := (sound config hdouble).reachable hgrants (inv_opened rows) (fun _ => trivial)
    (h.along fun _ hg => ledger_reachable hg)
  have hlawful := (ledger_reachable h).lawful
  obtain ⟨current, new, hconfirmed⟩ := hholds.1.applied later past u X hh
  have hpast : ∀ {e}, e ∈ past → e ∈ g.store.history := fun he => hh ▸ by simp [he]
  obtain ⟨was₁, hcurrent⟩ := hconfirmed.toCurrent
  obtain ⟨was₂, hnew⟩ := hconfirmed.toNew
  refine ⟨current, new, hconfirmed, fun recipient was hmail => ?_, fun recipient was hmail => ?_⟩
  · obtain ⟨o, ho, hto, -⟩ := hholds.1.mailed new recipient was hmail
    cases (hlawful.origin_of_mem (hpast hnew)).symm.trans ho
    exact (Option.some.inj (hto rfl)).symm
  · obtain ⟨o, ho, -, hwas⟩ := hholds.1.mailed current recipient was hmail
    cases (hlawful.origin_of_mem (hpast hcurrent)).symm.trans ho
    exact hwas rfl

section Examples

/-- A test of the statements that Matched is about. -/
def matched (_ : Client) : Op → Store → Bool
  | .siblingConsumed u type own, s => !s.siblingConsumed u type ||
      match s.tokens u .emailChangeCurrent, s.tokens u .emailChangeNew with
      | some t, some t' => t.partner = some t'.secret && (own = t.secret || own = t'.secret)
      | _, _ => false
  | .mail u x recipient, s => (origin x s.history).all (·.type ≠ .emailChangeCurrent) || s.email u = some recipient
  | _, _ => true

theorem matched_of (c : Client) (op : Op) (s : Store) (h : matched c op s = true) : Matched op s := by
  cases op with
  | siblingConsumed u type own =>
      intro hs
      simp only [matched, hs, Bool.not_true, Bool.false_or] at h
      split at h
      next t t' ht ht' => exact ⟨t, t', ht, ht', by simpa using h⟩
      next => cases h
  | mail u x recipient =>
      rintro ⟨o, ho, htype⟩
      simpa [matched, ho, htype] using h
  | _ => trivial

/-- Alice logs in, and proposes the address 5, which is confirmed from both sides. -/
def proposed : List (Move Client Chance Request) :=
  [.arrive 1 (.passwordGrant (.mailbox 0) 1), .run 1 .usual, .run 1 .usual, .run 1 .usual, .run 1 .usual, .run 1 .usual,
    .arrive 1 (.putUser ⟨0, 0, false⟩ ⟨none, none, some (.mailbox 5)⟩), .run 1 .usual, .run 1 .usual, .run 1 .usual,
    .run 1 .usual, .run 1 .usual, .run 1 .usual, .run 1 .usual,
    .arrive 2 (.verifyEmailChange 0), .run 2 .usual, .run 2 .usual, .run 2 .usual,
    .arrive 3 (.verifyEmailChange 1), .run 3 .usual, .run 3 .usual, .run 3 .usual]

theorem change_confirmed_proposed : ∃ g past current new,
    (accounts strict).Reachable (Protocol.Statements fun _ => Matched) (.opened [alice]) g ∧
    g.store.history = .applied 0 (.mailbox 5) :: past ∧ Confirmed 0 (.mailbox 5) current new past := by
  have h := Protocol.Reachable.start.replay (P := accounts strict) (s := .opened [alice])
    (Protocol.statements_watch matched_of) proposed rfl
  obtain ⟨current, new, hconfirmed, -⟩ := change_confirmed rfl h (u := 0) (X := .mailbox 5) (List.nil_append _).symm
  exact ⟨_, _, current, new, h, rfl, hconfirmed⟩

/-- A proposal of the address 4 is confirmed from the current address, and a proposal of the address 5 dies
after its first mail. -/
def mixed : List (Move Client Chance Request) :=
  [.arrive 1 (.passwordGrant (.mailbox 0) 1), .run 1 .usual, .run 1 .usual, .run 1 .usual, .run 1 .usual, .run 1 .usual,
    .arrive 1 (.putUser ⟨0, 0, false⟩ ⟨none, none, some (.mailbox 4)⟩), .run 1 .usual, .run 1 .usual, .run 1 .usual,
    .run 1 .usual, .run 1 .usual, .run 1 .usual, .run 1 .usual,
    .arrive 2 (.verifyEmailChange 1), .run 2 .usual, .run 2 .usual, .run 2 .usual,
    .arrive 1 (.putUser ⟨0, 0, false⟩ ⟨none, none, some (.mailbox 5)⟩), .run 1 .usual, .run 1 .usual, .run 1 .usual,
    .run 1 .usual, .crash 1,
    .arrive 3 (.verifyEmailChange 2), .run 3 .usual, .run 3 .usual, .run 3 .usual]

/-- The event is no proposal of the address to the current one. -/
def unasked (X : Address) : Event → Bool
  | .issued _ .emailChangeCurrent _ Y .. => Y ≠ some X
  | _ => true

theorem not_change_confirmed : ∃ g past, (accounts strict).Reachable (fun _ _ => True) (.opened [alice]) g ∧
    g.store.history = .applied 0 (.mailbox 5) :: past ∧ ∀ current new, ¬ Confirmed 0 (.mailbox 5) current new past := by
  refine ⟨_, _, Protocol.Reachable.start.free mixed rfl, rfl, fun current new h => ?_⟩
  obtain ⟨was, hmem⟩ := h.toCurrent
  refine absurd (List.all_eq_true (p := unasked (.mailbox 5)) |>.mp ?_ _ hmem) (by simp [unasked])
  rfl

end Examples

end Corebase.EmailChange
