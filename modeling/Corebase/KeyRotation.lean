import Corebase.SigningKeys

namespace Corebase.KeyRotation

open Interleaving SigningKeys

/-- The writes of a rotation command. -/
def writes : Op → Bool
  | .put .. | .replace .. | .insertNext .. | .insertRetiring .. | .deleteKey _ | .setRetired _ | .replaceApiKey ..
  | .insertApiKey .. => true
  | .next | .row _ | .get _ | .ref | .clock | .generate | .issue _ => false

/-- No kid is stored with a second key, and a token is signed with what the project's secrets hold at that moment, outside
of a swap. -/
def fits : Op → Store → Bool
  | .put (.privateKeyName kid) key, s => (s.secrets (.privateKeyName kid)).isSome || s.named kid key
  | .insertNext kid key, s => s.named kid key
  | .issue t, s => !s.swapping && s.secrets .jwtPrivateKey = some t.key && s.secrets .jwtKid = some t.kid
  | _, _ => true

/-- The commands of the rotation come one after the other. -/
def orderly (c : Client) (op : Op) (s : Store) : Bool := (!writes op || s.latest = c) && fits op s

/-- The three secrets hold one keypair under its kid or, within a swap, an old kid whose key is published. -/
def Signing (s : Store) (key pub : Key) (kid : Kid) : Prop :=
  if s.swapping then (∃ row ∈ s.rows, row.kid = kid) ∧ (s.secrets (.privateKeyName kid)).isSome = true
  else key = pub ∧ (kid, key) ∈ s.generated

structure Inv (s : Store) : Prop where
  ref : s.ref ≠ none
  functional : ∀ kid key key', (kid, key) ∈ s.generated → (kid, key') ∈ s.generated → key = key'
  rows : ∀ row ∈ s.rows, (row.kid, row.publicKey) ∈ s.generated
  halves : ∀ kid key, s.secrets (.privateKeyName kid) = some key → (kid, key) ∈ s.generated
  next : ∀ row ∈ s.rows, row.status = .next → s.secrets (.privateKeyName row.kid) = some row.publicKey
  keys : ∃ key pub kid, s.secrets .jwtPrivateKey = some key ∧ s.secrets .jwtPublicKey = some pub ∧
    s.secrets .jwtKid = some kid ∧ Signing s key pub kid
  issued : ∀ t ∈ s.issued, (t.kid, t.key) ∈ s.generated ∧
    (s.secrets .jwtKid = some t.kid ∨ ∃ row ∈ s.rows, row.kid = t.kid)

def order : Discipline Client Store Op where
  Inv := Inv
  Guar c s s' := s'.latest = c ∨ ∃ issued, s' = { s with issued := issued }
  Idle _ _ := True
  Allowed c op s := orderly c op s = true

variable {window : Nat} {c : Client} {s s' : Store} {chance : Chance} {kid : Kid} {key : Key} {A B : Store → Prop}

section Statements

theorem fits_of {op : Op} (h : orderly c op s = true) : fits op s = true := (Bool.and_eq_true_iff.mp h).2

theorem latest_of {op : Op} (h : orderly c op s = true) (hop : writes op = true) : s.latest = c := by
  simpa [hop] using (Bool.and_eq_true_iff.mp h).1

theorem setSecret_of_ne {name name' : SecretName} {value : Nat} (h : name' ≠ name) :
    (s.setSecret name value).secrets name' = s.secrets name' := Function.update_of_ne h ..

theorem setSecret_self {name : SecretName} {value : Nat} : (s.setSecret name value).secrets name = some value :=
  Function.update_self ..

theorem setSecret_half {name : SecretName} {value : Nat} (h : name ∈ signing) :
    (s.setSecret name value).secrets (.privateKeyName kid) = s.secrets (.privateKeyName kid) :=
  setSecret_of_ne (by rintro rfl; simp [signing] at h)

theorem named_iff : s.named kid key = true ↔ ∀ key', (kid, key') ∈ s.generated → key' = key := by
  simp only [Store.named, List.all_eq_true, Bool.or_eq_true, decide_eq_true_eq, Prod.forall]
  constructor
  · intro h key' hmem
    exact (h kid key' hmem).resolve_left fun hne => hne rfl
  · intro h kid' key' hmem
    by_cases hk : kid' = kid
    · subst hk
      exact .inr (h key' hmem)
    · exact .inl hk

/-- The rows keep their kids, and the new ones have a keypair of the project. -/
theorem Inv.of_rows (h : Inv s) {rows : List SigningKey} (hkids : ∀ row ∈ s.rows, ∃ row' ∈ rows, row'.kid = row.kid)
    (hrows : ∀ row ∈ rows, (row.kid, row.publicKey) ∈ s.generated)
    (hnext : ∀ row ∈ rows, row.status = .next → s.secrets (.privateKeyName row.kid) = some row.publicKey) :
    Inv { s with rows := rows } := by
  have hkept : ∀ kid, (∃ row ∈ s.rows, row.kid = kid) → ∃ row ∈ rows, row.kid = kid := by
    rintro _ ⟨row, hrow, rfl⟩
    exact hkids row hrow
  obtain ⟨key, pub, kid, hkey, hpub, hkid, hsigning⟩ := h.keys
  refine ⟨h.ref, h.functional, hrows, h.halves, hnext, ⟨key, pub, kid, hkey, hpub, hkid, ?_⟩, fun t ht => ?_⟩
  · unfold Signing at hsigning ⊢
    split
    next hswap =>
      rw [if_pos hswap] at hsigning
      exact ⟨hkept kid hsigning.1, hsigning.2⟩
    next hswap => rwa [if_neg hswap] at hsigning
  · obtain ⟨hpair, hpublished⟩ := h.issued t ht
    exact ⟨hpair, hpublished.imp_right (hkept t.kid)⟩

theorem Inv.of_issued (h : Inv s) {t : Token} (hpair : (t.kid, t.key) ∈ s.generated)
    (hkid : s.secrets .jwtKid = some t.kid) : Inv { s with issued := t :: s.issued } := by
  refine ⟨h.ref, h.functional, h.rows, h.halves, h.next, h.keys, fun t' ht' => ?_⟩
  rcases List.mem_cons.mp ht' with rfl | ht'
  · exact ⟨hpair, .inl hkid⟩
  · exact h.issued t' ht'

theorem Inv.settled (h : Inv s) (hswap : s.swapping = false) :
    ∃ key kid, s.secrets .jwtPrivateKey = some key ∧ s.secrets .jwtPublicKey = some key ∧
      s.secrets .jwtKid = some kid ∧ (kid, key) ∈ s.generated := by
  obtain ⟨key, pub, kid, hkey, hpub, hkid, hsigning⟩ := h.keys
  rw [Signing, if_neg (Bool.not_eq_true _ ▸ hswap)] at hsigning
  obtain ⟨rfl, hpair⟩ := hsigning
  exact ⟨key, kid, hkey, hpub, hkid, hpair⟩

theorem Inv.swap (h : Inv s) (hswap : s.swapping = true) :
    ∃ kid, s.secrets .jwtKid = some kid ∧ (∃ row ∈ s.rows, row.kid = kid) ∧
      (s.secrets (.privateKeyName kid)).isSome = true := by
  obtain ⟨key, pub, kid, -, -, hkid, hsigning⟩ := h.keys
  rw [Signing, if_pos hswap] at hsigning
  exact ⟨kid, hkid, hsigning⟩

/-- What may be published under the kid of the project without a row of that kid is the key that signs. -/
theorem Inv.active_pair (h : Inv s) {pub : Key} (hkid : s.secrets .jwtKid = some kid)
    (hpub : s.secrets .jwtPublicKey = some pub) (hrow : ¬ ∃ row ∈ s.rows, row.kid = kid) :
    (kid, pub) ∈ s.generated := by
  cases hswap : s.swapping with
  | true =>
      obtain ⟨kid', hkid', hrow', -⟩ := h.swap hswap
      cases hkid.symm.trans hkid'
      exact absurd hrow' hrow
  | false =>
      obtain ⟨key, kid', -, hpub', hkid', hpair⟩ := h.settled hswap
      cases hkid.symm.trans hkid'
      cases hpub.symm.trans hpub'
      exact hpair

theorem exec_put (chance : Chance) {name : SecretName} {value : Nat} {r : Unit}
    (h : exec c chance (.put name value) s = some (r, s')) :
    (s.secrets name).isSome = true ∧ s' = s ∨
      s.secrets name = none ∧ s' = (s.setSecret name value).keepPair name value := by
  simp only [exec] at h
  split at h <;> cases h
  next hsome => exact .inl ⟨hsome, rfl⟩
  next hnone => exact .inr ⟨Option.not_isSome_iff_eq_none.mp hnone, rfl⟩

theorem keeps_put (chance : Chance) {r : Unit} (h : Inv s) (hok : orderly c (.put (.privateKeyName kid) key) s = true)
    (hexec : exec c chance (.put (.privateKeyName kid) key) s = some (r, s')) :
    Inv s' ∧ (s'.secrets (.privateKeyName kid)).isSome = true ∧ s'.latest = s.latest ∧ s'.rows = s.rows ∧
      s'.swapping = s.swapping ∧ (∀ name ∈ signing, s'.secrets name = s.secrets name) ∧
      ∀ pair ∈ s.generated, pair ∈ s'.generated := by
  rcases exec_put chance hexec with ⟨hsome, rfl⟩ | ⟨hnone, rfl⟩
  · exact ⟨h, hsome, rfl, rfl, rfl, fun _ _ => rfl, fun _ => id⟩
  · have hnamed : ∀ key', (kid, key') ∈ s.generated → key' = key := by
      have hfits := fits_of hok
      simp only [fits, hnone, Option.isSome_none, Bool.false_or] at hfits
      exact named_iff.mp hfits
    have hother : ∀ name, name ≠ .privateKeyName kid →
        Function.update s.secrets (.privateKeyName kid) (some key) name = s.secrets name :=
      fun _ hname => Function.update_of_ne hname ..
    have hsigning : ∀ name ∈ signing, Function.update s.secrets (.privateKeyName kid) (some key) name = s.secrets name :=
      fun name hname => hother name (by rintro rfl; simp [signing] at hname)
    refine ⟨⟨h.ref, ?_, fun row hrow => List.mem_cons_of_mem _ (h.rows row hrow), ?_, ?_, ?_, ?_⟩,
      by simp [Store.setSecret, Store.keepPair], rfl, rfl, rfl, hsigning, fun _ => List.mem_cons_of_mem _⟩
    · intro kid' k k' hk hk'
      simp only [Store.keepPair, Store.setSecret, List.mem_cons, Prod.mk.injEq] at hk hk'
      rcases hk with ⟨rfl, rfl⟩ | hk <;> rcases hk' with ⟨h', rfl⟩ | hk'
      · rfl
      · exact (hnamed k' hk').symm
      · exact hnamed k (h' ▸ hk)
      · exact h.functional kid' k k' hk hk'
    · intro kid' k hk
      by_cases hkid : kid' = kid
      · subst hkid
        obtain rfl : key = k := by simpa [Store.keepPair, Store.setSecret] using hk
        exact List.mem_cons_self
      · exact List.mem_cons_of_mem _ (h.halves kid' k ((hother (.privateKeyName kid') (by simpa using hkid)).symm.trans hk))
    · intro row hrow hstatus
      refine (hother _ fun heq => ?_).trans (h.next row hrow hstatus)
      cases (h.next row hrow hstatus).symm.trans (heq ▸ hnone)
    · obtain ⟨k, pub, kid', hk, hpub, hkid, hs⟩ := h.keys
      refine ⟨k, pub, kid', (hsigning _ (by simp [signing])).trans hk, (hsigning _ (by simp [signing])).trans hpub,
        (hsigning _ (by simp [signing])).trans hkid, ?_⟩
      unfold Signing at hs ⊢
      change if s.swapping then _ else _
      split
      next hswap =>
        rw [if_pos hswap] at hs
        refine ⟨hs.1, ?_⟩
        by_cases heq : kid' = kid
        · subst heq
          simp [Store.keepPair, Store.setSecret]
        · exact (congrArg Option.isSome (hother (.privateKeyName kid') (by simpa using heq))).trans hs.2
      next hswap =>
        rw [if_neg hswap] at hs
        exact ⟨hs.1, List.mem_cons_of_mem _ hs.2⟩
    · intro t ht
      obtain ⟨hpair, hpublished⟩ := h.issued t ht
      exact ⟨List.mem_cons_of_mem _ hpair, hpublished.imp_left (hsigning _ (by simp [signing])).trans⟩

theorem keeps_insertNext (chance : Chance) {ok : Bool} (h : Inv s) (hok : orderly c (.insertNext kid key) s = true)
    (hstored : (s.secrets (.privateKeyName kid)).isSome = true)
    (hexec : exec c chance (.insertNext kid key) s = some (ok, s')) : Inv s' ∧ s'.latest = s.latest := by
  simp only [exec] at hexec
  split at hexec <;> cases hexec
  · exact ⟨h, rfl⟩
  · obtain ⟨key', hkey'⟩ := Option.isSome_iff_exists.mp hstored
    obtain rfl : key' = key := named_iff.mp (fits_of hok) key' (h.halves kid key' hkey')
    refine ⟨h.of_rows (fun row hrow => ⟨row, List.mem_append_left _ hrow, rfl⟩) ?_ ?_, rfl⟩
    · intro row hrow
      rcases List.mem_append.mp hrow with hrow | hrow
      · exact h.rows row hrow
      · obtain rfl := List.mem_singleton.mp hrow
        exact h.halves kid key' hkey'
    · intro row hrow hstatus
      rcases List.mem_append.mp hrow with hrow | hrow
      · exact h.next row hrow hstatus
      · obtain rfl := List.mem_singleton.mp hrow
        exact hkey'

/-- A change of the status of the rows of a kid, none of which is `next` after it. -/
theorem Inv.of_status (h : Inv s) (f : SigningKey → SigningKey)
    (hf : ∀ row, (f row).kid = row.kid ∧ (f row).publicKey = row.publicKey ∧
      ((f row).status = .next → row.status = .next)) : Inv { s with rows := s.rows.map f } := by
  refine h.of_rows (fun row hrow => ⟨f row, List.mem_map_of_mem hrow, (hf row).1⟩) ?_ ?_
  · intro _ hmem
    obtain ⟨row, hrow, rfl⟩ := List.mem_map.mp hmem
    rw [(hf row).1, (hf row).2.1]
    exact h.rows row hrow
  · intro _ hmem hstatus
    obtain ⟨row, hrow, rfl⟩ := List.mem_map.mp hmem
    rw [(hf row).1, (hf row).2.1]
    exact h.next row hrow ((hf row).2.2 hstatus)

theorem keeps_insertRetiring (c : Client) (chance : Chance) {after : Nat} {r : Unit} (h : Inv s)
    (hkid : s.secrets .jwtKid = some kid) (hpub : s.secrets .jwtPublicKey = some key)
    (hexec : exec c chance (.insertRetiring kid key after) s = some (r, s')) :
    Inv s' ∧ (∃ row ∈ s'.rows, row.kid = kid ∧ row.status = .retiring) ∧ ∃ rows, s' = { s with rows := rows } := by
  simp only [exec] at hexec
  split at hexec <;> cases hexec
  next hrow =>
    obtain ⟨row, hrow, heq⟩ := List.any_eq_true.mp hrow
    rw [decide_eq_true_eq] at heq
    refine ⟨h.of_status _ fun row => ?_, ⟨_, List.mem_map_of_mem hrow, ?_⟩, _, rfl⟩
    · split <;> simp
    · simp [heq]
  next hrow =>
    have hpair : (kid, key) ∈ s.generated := by
      refine h.active_pair hkid hpub fun ⟨row, hmem, heq⟩ => hrow ?_
      exact List.any_eq_true.mpr ⟨row, hmem, by simpa using heq⟩
    refine ⟨h.of_rows (fun row hrow => ⟨row, List.mem_append_left _ hrow, rfl⟩) ?_ ?_,
      ⟨_, List.mem_append_right _ (List.mem_singleton_self _), rfl, rfl⟩, _, rfl⟩
    · intro row hrow
      rcases List.mem_append.mp hrow with hrow | hrow
      · exact h.rows row hrow
      · obtain rfl := List.mem_singleton.mp hrow
        exact hpair
    · intro row hrow hstatus
      rcases List.mem_append.mp hrow with hrow | hrow
      · exact h.next row hrow hstatus
      · obtain rfl := List.mem_singleton.mp hrow
        cases hstatus

theorem keeps_deleteKey (h : Inv s) (hkid : s.secrets .jwtKid = some kid) (hswap : s.swapping = false) :
    Inv { s with rows := s.rows.filter fun row => row.kid ≠ kid } := by
  have hmem : ∀ row ∈ s.rows.filter fun row => row.kid ≠ kid, row ∈ s.rows := fun row hrow => List.mem_of_mem_filter hrow
  obtain ⟨key, kid', hkey, hpub, hkid', hpair⟩ := h.settled hswap
  refine ⟨h.ref, h.functional, fun row hrow => h.rows row (hmem row hrow), h.halves,
    fun row hrow => h.next row (hmem row hrow), ⟨key, key, kid', hkey, hpub, hkid', ?_⟩, fun t ht => ?_⟩
  · rw [Signing, if_neg (by simp [hswap])]
    exact ⟨rfl, hpair⟩
  · obtain ⟨hpair, hpublished⟩ := h.issued t ht
    refine ⟨hpair, ?_⟩
    by_cases heq : t.kid = kid
    · exact .inl (heq ▸ hkid)
    · refine hpublished.imp_right fun ⟨row, hrow, hrowkid⟩ => ⟨row, List.mem_filter.mpr ⟨hrow, ?_⟩, hrowkid⟩
      simpa [hrowkid] using heq

/-- One of the three secrets that sign is replaced. -/
theorem Inv.of_secret (h : Inv s) {name : SecretName} {value : Nat} (swapping : Bool) (hname : name ∈ signing)
    (hkeys : ∃ key pub kid, (s.setSecret name value).secrets .jwtPrivateKey = some key ∧
      (s.setSecret name value).secrets .jwtPublicKey = some pub ∧ (s.setSecret name value).secrets .jwtKid = some kid ∧
      Signing { s.setSecret name value with swapping := swapping } key pub kid)
    (hissued : ∀ kid, s.secrets .jwtKid = some kid → (s.setSecret name value).secrets .jwtKid = some kid ∨
      ∃ row ∈ s.rows, row.kid = kid) : Inv { s.setSecret name value with swapping := swapping } where
  ref := h.ref
  functional := h.functional
  rows := h.rows
  halves kid key hk := h.halves kid key ((setSecret_half hname).symm.trans hk)
  next row hrow hstatus := (setSecret_half hname).trans (h.next row hrow hstatus)
  keys := hkeys
  issued t ht := ⟨(h.issued t ht).1, (h.issued t ht).2.elim (hissued t.kid) .inr⟩

/-- The replacing of the private key opens a swap. -/
theorem keeps_openSwap (h : Inv s) (hkid : s.secrets .jwtKid = some kid) (hrow : ∃ row ∈ s.rows, row.kid = kid)
    (hold : (s.secrets (.privateKeyName kid)).isSome = true) :
    Inv { s.setSecret .jwtPrivateKey key with swapping := true } := by
  obtain ⟨_, pub, _, -, hpub, -, -⟩ := h.keys
  have hkid' : (s.setSecret .jwtPrivateKey key).secrets .jwtKid = some kid := (setSecret_of_ne (by simp)).trans hkid
  refine h.of_secret true (by simp [signing])
    ⟨key, pub, kid, setSecret_self, (setSecret_of_ne (by simp)).trans hpub, hkid', ?_⟩ fun kid' h' => .inl ?_
  · have hhalf : (s.setSecret .jwtPrivateKey key).secrets (.privateKeyName kid) = s.secrets (.privateKeyName kid) :=
      setSecret_half (by simp [signing])
    rw [Signing, if_pos rfl]
    exact ⟨hrow, (congrArg Option.isSome hhalf).trans hold⟩
  · exact (setSecret_of_ne (by simp)).trans h'

theorem keeps_replacePublicKey (h : Inv s) (hswap : s.swapping = true) : Inv (s.setSecret .jwtPublicKey key) := by
  obtain ⟨priv, _, kid, hpriv, -, hkid, hsigning⟩ := h.keys
  rw [Signing, if_pos hswap] at hsigning
  refine h.of_secret s.swapping (by simp [signing])
    ⟨priv, key, kid, (setSecret_of_ne (by simp)).trans hpriv, setSecret_self, (setSecret_of_ne (by simp)).trans hkid, ?_⟩
    fun kid' h' => .inl ((setSecret_of_ne (by simp)).trans h')
  rw [Signing, if_pos hswap]
  exact ⟨hsigning.1, (congrArg Option.isSome (setSecret_half (by simp [signing]))).trans hsigning.2⟩

/-- The replacing of the kid closes the swap. -/
theorem keeps_closeSwap (h : Inv s) (hswap : s.swapping = true) (hpriv : s.secrets .jwtPrivateKey = some key)
    (hpub : s.secrets .jwtPublicKey = some key) (hpair : (kid, key) ∈ s.generated) :
    Inv { s.setSecret .jwtKid kid with swapping := false } := by
  obtain ⟨oldKid, hkid, hrow, -⟩ := h.swap hswap
  refine h.of_secret false (by simp [signing])
    ⟨key, key, kid, (setSecret_of_ne (by simp)).trans hpriv, (setSecret_of_ne (by simp)).trans hpub, setSecret_self, ?_⟩
    fun kid' h' => .inr ?_
  · rw [Signing, if_neg (by simp)]
    exact ⟨rfl, hpair⟩
  · cases hkid.symm.trans h'
    exact hrow

end Statements

section Programs

/-- What holds as long as the client's command is the one that was started last. -/
def Own (c : Client) (A : Store → Prop) (s : Store) : Prop := s.latest = c → A s

theorem stable_own (hA : ∀ s issued, A s → A { s with issued := issued }) : order.Stable c (Own c A) := by
  rintro d hd s s' - (hlatest | ⟨issued, rfl⟩) h hc
  · exact absurd (hlatest.symm.trans hc) hd
  · exact hA s issued (h hc)

theorem meets_done {Q : Store → Prop} : order.Meets (rotation window) c .done Q := fun _ _ _ => trivial

/-- The reads that are still to come are among the names, and the others have found what the store holds. -/
def Read (names : List SecretName) (found : SecretName → Option Nat) (s : Store) : Prop :=
  ∀ name ∈ signing, name ∈ names ∨ found name = s.secrets name

theorem Read.start (names : Order) (s : Store) : Read names.1 (fun _ => none) s :=
  fun _ hname => .inl (names.2.mem_iff.mpr hname)

theorem Read.next {name : SecretName} {names : List SecretName} {found : SecretName → Option Nat}
    (h : Read (name :: names) found s) : Read names (Function.update found name (s.secrets name)) s := by
  intro name' hname'
  by_cases heq : name' = name
  · subst heq
    exact .inr (Function.update_self ..)
  · rw [Function.update_of_ne heq]
    exact (h name' hname').imp_left fun hmem => (List.mem_cons.mp hmem).resolve_left heq

theorem Read.all {found : SecretName → Option Nat} (h : Read [] found s) :
    found .jwtPrivateKey = s.secrets .jwtPrivateKey ∧ found .jwtPublicKey = s.secrets .jwtPublicKey ∧
      found .jwtKid = s.secrets .jwtKid := by
  have heq : ∀ name ∈ signing, found name = s.secrets name := fun name hname => (h name hname).resolve_left nofun
  exact ⟨heq _ (by simp [signing]), heq _ (by simp [signing]), heq _ (by simp [signing])⟩

theorem meets_getAll (hA : ∀ s issued, A s → A { s with issued := issued })
    {next : (SecretName → Option Nat) → Program Op Reply} {names : List SecretName}
    (hnext : ∀ found, order.Meets (rotation window) c (next found) (Own c fun s => Read [] found s ∧ A s))
    (found : SecretName → Option Nat) :
    order.Meets (rotation window) c (getAll found names next) (Own c fun s => Read names found s ∧ A s) := by
  induction names generalizing found with
  | nil => exact hnext found
  | cons name names ih =>
      intro s chance value s' hI hs _ hexec
      cases hexec
      exact ⟨hI, .inr ⟨_, rfl⟩, _, stable_own fun s issued h => ⟨h.1, hA s issued h.2⟩,
        fun hc => ⟨(hs hc).1.next, (hs hc).2⟩, ih _⟩

/-- The project signs with the keypair that has been brought in. -/
def Switched (kid : Kid) (key : Key) (s : Store) : Prop :=
  s.swapping = false ∧ s.secrets .jwtKid = some kid ∧ (kid, key) ∈ s.generated

theorem meets_remintApiKeys (ref : Ref) (roles : List Role) :
    order.Meets (rotation window) c (remintApiKeys ref key kid roles) (Own c (Switched kid key)) := by
  have hstable : order.Stable c (Own c (Switched kid key)) := stable_own fun _ _ => id
  induction roles with
  | nil => exact meets_done
  | cons role roles ih =>
      intro s chance' now s' hI hs _ hexec
      cases hexec
      refine ⟨hI, .inr ⟨_, rfl⟩, _, hstable, hs, ?_⟩
      intro s chance r s' hI hs hok hexec
      have hc := latest_of hok rfl
      cases hexec
      refine ⟨?_, .inl hc, _, hstable, hs, ?_⟩
      · have hissued := hI.of_issued (t := ⟨key, kid, ref, role, chance'.now / 1000, chance'.now / 1000 + projectKeyTtl⟩)
          (hs hc).2.2 (hs hc).2.1
        exact ⟨hissued.ref, hissued.functional, hissued.rows, hissued.halves, hissued.next, hissued.keys, hissued.issued⟩
      · intro s chance r s' hI hs hok hexec
        have hc := latest_of hok rfl
        cases hexec
        exact ⟨⟨hI.ref, hI.functional, hI.rows, hI.halves, hI.next, hI.keys, hI.issued⟩, .inl hc, _, hstable, hs, ih⟩

/-- The next key has a private half that may sign. -/
def Incoming (incoming : SigningKey) (newPriv : Key) (s : Store) : Prop :=
  newPriv = incoming.publicKey ∧ (incoming.kid, newPriv) ∈ s.generated

/-- The key that signs is kept, with a row and its private half under its own name. -/
def Kept (s : Store) : Prop := ∃ kid, s.secrets .jwtKid = some kid ∧ (∃ row ∈ s.rows, row.kid = kid) ∧
  (s.secrets (.privateKeyName kid)).isSome = true

theorem meets_swap (ref : Ref) (incoming : SigningKey) (newPriv : Key) :
    order.Meets (rotation window) c (swap ref incoming newPriv) (Own c fun s => Incoming incoming newPriv s ∧ Kept s) := by
  intro s chance r s' hI hs hok hexec
  have hc := latest_of hok rfl
  cases hexec
  obtain ⟨⟨rfl, hpair⟩, kid, hkid, hrow, hold⟩ := hs hc
  refine ⟨keeps_openSwap hI hkid hrow hold, .inl hc, Own c fun s => s.swapping = true ∧
    s.secrets .jwtPrivateKey = some incoming.publicKey ∧ (incoming.kid, incoming.publicKey) ∈ s.generated,
    stable_own fun _ _ => id, fun _ => ⟨rfl, by simp [Store.setSecret], hpair⟩, ?_⟩
  intro s chance r s' hI hs hok hexec
  have hc := latest_of hok rfl
  cases hexec
  obtain ⟨hswap, hpriv, hpair⟩ := hs hc
  refine ⟨keeps_replacePublicKey hI hswap, .inl hc, Own c fun s => s.swapping = true ∧
    s.secrets .jwtPrivateKey = some incoming.publicKey ∧ s.secrets .jwtPublicKey = some incoming.publicKey ∧
    (incoming.kid, incoming.publicKey) ∈ s.generated,
    stable_own fun _ _ => id, fun _ => ⟨hswap, (setSecret_of_ne (by simp)).trans hpriv, setSecret_self, hpair⟩, ?_⟩
  intro s chance r s' hI hs hok hexec
  have hc := latest_of hok rfl
  cases hexec
  obtain ⟨hswap, hpriv, hpub, hpair⟩ := hs hc
  refine ⟨keeps_closeSwap hI hswap hpriv hpub hpair, .inl hc, Own c (Switched incoming.kid incoming.publicKey),
    stable_own fun _ _ => id, fun _ => ⟨rfl, by simp [Store.setSecret], hpair⟩, ?_⟩
  intro s chance r s' hI hs hok hexec
  have hc := latest_of hok rfl
  cases hexec
  obtain ⟨hswap, hkid, hpair⟩ := hs hc
  exact ⟨keeps_deleteKey hI hkid hswap, .inl hc, Own c (Switched incoming.kid incoming.publicKey),
    stable_own fun _ _ => id, fun _ => ⟨hswap, hkid, hpair⟩, meets_remintApiKeys ref [.anon, .serviceRole]⟩

/-- What a cut-over has read of the key that signs is still in the store. -/
def Old (oldPriv : Option Key) (oldPub : Key) (oldKid : Kid) (s : Store) : Prop :=
  oldPriv = s.secrets .jwtPrivateKey ∧ s.secrets .jwtPublicKey = some oldPub ∧ s.secrets .jwtKid = some oldKid

theorem meets_keepOld {incoming : SigningKey} {newPriv : Key} {next : Program Op Reply}
    (hnext : order.Meets (rotation window) c next (Own c fun s => Incoming incoming newPriv s ∧ Kept s))
    (oldPriv : Option Key) (oldPub : Key) (oldKid : Kid) :
    order.Meets (rotation window) c (keepOld window oldPriv oldPub oldKid next)
      (Own c fun s => Old oldPriv oldPub oldKid s ∧ Incoming incoming newPriv s) := by
  intro s chance now s' hI hs _ hexec
  cases hexec
  refine ⟨hI, .inr ⟨_, rfl⟩, _, stable_own fun _ _ => id, hs, ?_⟩
  intro s chance r s' hI hs hok hexec
  have hc := latest_of hok rfl
  obtain ⟨⟨hpriv, hpub, hkid⟩, hincoming⟩ := hs hc
  obtain ⟨hI', ⟨row, hrow, hrowkid, -⟩, rows, rfl⟩ := keeps_insertRetiring c chance hI hkid hpub hexec
  refine ⟨hI', .inl hc,
    Own c fun s => (Old oldPriv oldPub oldKid s ∧ Incoming incoming newPriv s) ∧ ∃ row ∈ s.rows, row.kid = oldKid,
    stable_own fun _ _ => id, fun _ => ⟨⟨⟨hpriv, hpub, hkid⟩, hincoming⟩, row, hrow, hrowkid⟩, ?_⟩
  cases oldPriv with
  | none =>
      refine hnext.mono fun s hI h hc => ?_
      obtain ⟨⟨⟨hnone, -, -⟩, -⟩, -⟩ := h hc
      obtain ⟨key, -, -, hkey, -⟩ := hI.keys
      cases hnone.trans hkey
  | some oldPriv =>
      intro s chance r s' hI hs hok hexec
      have hc := latest_of hok rfl
      obtain ⟨⟨⟨-, -, hkid⟩, hnew, hpair⟩, row, hrow, hrowkid⟩ := hs hc
      obtain ⟨hI', hold, hlatest, hrows, -, hsigning, hgenerated⟩ := keeps_put chance hI hok hexec
      refine ⟨hI', .inl (hlatest.trans hc), Own c fun s => Incoming incoming newPriv s ∧ Kept s,
        stable_own fun _ _ => id, fun _ => ⟨⟨hnew, hgenerated _ hpair⟩, oldKid, ?_, ?_, hold⟩, hnext⟩
      · exact (hsigning _ (by simp [signing])).trans hkid
      · exact ⟨row, hrows ▸ hrow, hrowkid⟩

theorem meets_cutOver (names : Order) (opts : Options) {Q : Store → Prop} :
    order.Meets (rotation window) c (cutOver window names opts) Q := by
  intro s chance incoming s' hI _ _ hexec
  cases hexec
  have hI' : Inv { s with latest := c } := ⟨hI.ref, hI.functional, hI.rows, hI.halves, hI.next, hI.keys, hI.issued⟩
  cases hnext : s.nextKey with
  | none => exact ⟨hI', .inl rfl, _, Discipline.stable_true, trivial, meets_done⟩
  | some incoming =>
      refine ⟨hI', .inl rfl, Own c fun s => incoming ∈ s.rows ∧ incoming.status = .next, stable_own fun _ _ => id,
        fun _ => ⟨List.mem_of_find?_eq_some hnext, by simpa using List.find?_some hnext⟩, ?_⟩
      intro s chance now s' hI hs _ hexec
      cases hexec
      refine ⟨hI, .inr ⟨_, rfl⟩, _, stable_own fun _ _ => id, hs, ?_⟩
      beta_reduce
      split
      next => exact meets_done
      next =>
        refine (meets_getAll (A := fun s => incoming ∈ s.rows ∧ incoming.status = .next) (fun _ _ => id) (fun old => ?_)
          fun _ => none).mono fun s _ h hc => ⟨Read.start names s, h hc⟩
        split
        next oldPub oldKid hpub hkid =>
          intro s chance newPriv s' hI hs _ hexec
          cases hexec
          cases hpriv : s.secrets (.privateKeyName incoming.kid) with
          | none => exact ⟨hI, .inr ⟨_, rfl⟩, _, Discipline.stable_true, trivial, meets_done⟩
          | some newPriv =>
              refine ⟨hI, .inr ⟨_, rfl⟩,
                Own c fun s => Old (old .jwtPrivateKey) oldPub oldKid s ∧ Incoming incoming newPriv s,
                stable_own fun _ _ => id, fun hc => ?_, ?_⟩
              · obtain ⟨hread, hrow, hstatus⟩ := hs hc
                obtain ⟨hpriv', hpub', hkid'⟩ := hread.all
                refine ⟨⟨hpriv', hpub'.symm.trans hpub, hkid'.symm.trans hkid⟩, ?_, hI.halves _ _ hpriv⟩
                exact Option.some.inj (hpriv.symm.trans (hI.next incoming hrow hstatus))
              · intro s chance ref s' hI hs _ hexec
                cases hexec
                cases s.ref with
                | none => exact ⟨hI, .inr ⟨_, rfl⟩, _, Discipline.stable_true, trivial, meets_done⟩
                | some ref =>
                    exact ⟨hI, .inr ⟨_, rfl⟩, _, stable_own fun _ _ => id, hs, meets_keepOld (meets_swap ref incoming newPriv) _ _ _⟩
        next => exact meets_done

theorem meets_beginRotation {Q : Store → Prop} : order.Meets (rotation window) c beginRotation Q := by
  intro s chance row s' hI _ _ hexec
  cases hexec
  have hI' : Inv { s with latest := c } := ⟨hI.ref, hI.functional, hI.rows, hI.halves, hI.next, hI.keys, hI.issued⟩
  refine ⟨hI', .inl rfl, _, Discipline.stable_true, trivial, ?_⟩
  cases s.nextKey with
  | some row => exact meets_done
  | none =>
      intro s chance pair s' hI _ _ hexec
      cases hexec
      refine ⟨hI, .inr ⟨_, rfl⟩, _, Discipline.stable_true, trivial, ?_⟩
      intro s chance' r s' hI _ hok hexec
      have hc := latest_of hok rfl
      obtain ⟨hI', hstored, hlatest, -⟩ := keeps_put chance' hI hok hexec
      refine ⟨hI', .inl (hlatest.trans hc), Own c fun s => (s.secrets (.privateKeyName chance.pair.1)).isSome = true,
        stable_own fun _ _ => id, fun _ => hstored, ?_⟩
      intro s chance' r s' hI hs hok hexec
      have hc := latest_of hok rfl
      obtain ⟨hI', hlatest⟩ := keeps_insertNext chance' hI hok (hs hc) hexec
      exact ⟨hI', .inl (hlatest.trans hc), _, Discipline.stable_true, trivial, meets_done⟩

theorem meets_setRetired {Q : Store → Prop} :
    order.Meets (rotation window) c (.step (.setRetired kid) fun _ => .done) Q := by
  intro s chance r s' hI _ hok hexec
  have hc := latest_of hok rfl
  cases hexec
  refine ⟨hI.of_status _ fun row => ?_, .inl hc, _, Discipline.stable_true, trivial, meets_done⟩
  split <;> simp

theorem meets_retire (kid : Kid) (force : Bool) {Q : Store → Prop} :
    order.Meets (rotation window) c (retire kid force) Q := by
  intro s chance row s' hI _ _ hexec
  cases hexec
  have hI' : Inv { s with latest := c } := ⟨hI.ref, hI.functional, hI.rows, hI.halves, hI.next, hI.keys, hI.issued⟩
  refine ⟨hI', .inl rfl, _, Discipline.stable_true, trivial, ?_⟩
  beta_reduce
  split
  next => exact meets_done
  next row =>
    split
    next => exact meets_done
    next => exact meets_setRetired
    next =>
      intro s chance now s' hI _ _ hexec
      cases hexec
      refine ⟨hI, .inr ⟨_, rfl⟩, _, Discipline.stable_true, trivial, ?_⟩
      beta_reduce
      split
      next => exact meets_done
      next => exact meets_setRetired

theorem meets_sign (names : Order) (ttl : Nat) {Q : Store → Prop} :
    order.Meets (rotation window) c (sign names ttl) Q := by
  intro s chance ref s' hI _ _ hexec
  cases hexec
  refine ⟨hI, .inr ⟨_, rfl⟩, Own c fun _ => True, stable_own fun _ _ => id, fun _ => trivial, ?_⟩
  cases s.ref with
  | none => exact meets_done
  | some ref =>
      refine (meets_getAll (A := fun _ => True) (fun _ _ => id) (fun found => ?_)
        fun _ => none).mono fun s _ h hc => ⟨Read.start names s, h hc⟩
      split
      next key _ kid _ _ _ =>
        intro s chance now s' hI _ _ hexec
        cases hexec
        refine ⟨hI, .inr ⟨_, rfl⟩, _, Discipline.stable_true, trivial, ?_⟩
        intro s chance r s' hI _ hok hexec
        cases hexec
        have hfits := fits_of hok
        simp only [fits, Bool.and_eq_true, Bool.not_eq_true', decide_eq_true_eq] at hfits
        obtain ⟨⟨hswap, hkey⟩, hkid⟩ := hfits
        obtain ⟨key', kid', hkey', -, hkid', hpair⟩ := hI.settled hswap
        cases hkey.symm.trans hkey'
        cases hkid.symm.trans hkid'
        exact ⟨hI.of_issued hpair hkid, .inr ⟨_, rfl⟩, _, Discipline.stable_true, trivial, meets_done⟩
      next => exact meets_done

theorem sound : order.Sound (rotation window) where
  idle _ := Discipline.stable_true
  abort c s hI _ := ⟨hI, .inr ⟨_, rfl⟩, trivial⟩
  program c q := by
    cases q with
    | beginRotation => exact meets_beginRotation
    | cutOver names opts => exact meets_cutOver names opts
    | retire kid force => exact meets_retire kid force
    | sign names ttl => exact meets_sign names ttl

end Programs

section Completion

variable {legal : Chance → Prop} {Q : Store → Prop}

theorem finishes_getAll {next : (SecretName → Option Nat) → Program Op Reply}
    (hnext : ∀ found, Read [] found s → (rotation window).Finishes c legal Q (next found) s) {names : List SecretName}
    {found : SecretName → Option Nat} (h : Read names found s) :
    (rotation window).Finishes c legal Q (getAll found names next) s := by
  induction names generalizing found with
  | nil => exact hnext found h
  | cons name names ih => exact fun chance _ => ⟨_, _, rfl, ih h.next⟩

/-- The project's API keys of these roles are signed with the key. -/
def Minted (kid : Kid) (key : Key) (roles : List Role) (s : Store) : Prop :=
  ∀ role ∈ roles, ∃ t, s.apiSecrets role = some t ∧ (role, t) ∈ s.apiKeys ∧ t.kid = kid ∧ t.key = key ∧
    t.claims.role = role

theorem finishes_remintApiKeys {B : Store → Prop}
    (hB : ∀ s apiSecrets apiKeys issued, B s → B { s with apiSecrets := apiSecrets, apiKeys := apiKeys, issued := issued })
    (ref : Ref) (roles minted : List Role) (hs : B s) (hminted : Minted kid key minted s) :
    (rotation window).Finishes c legal (fun s => B s ∧ Minted kid key (roles.reverse ++ minted) s)
      (remintApiKeys ref key kid roles) s := by
  induction roles generalizing s minted with
  | nil => exact ⟨hs, hminted⟩
  | cons role roles ih =>
      intro chance _
      refine ⟨_, _, rfl, fun _ _ => ⟨_, _, rfl, fun _ _ => ⟨_, _, rfl, ?_⟩⟩⟩
      rw [List.reverse_cons, List.append_assoc, List.singleton_append]
      refine ih _ (hB s _ _ _ hs) fun role' hrole' => ?_
      by_cases heq : role' = role
      · subst heq
        exact ⟨_, Function.update_self .., List.mem_insert_self, rfl, rfl, rfl⟩
      · obtain ⟨t, ht, hmem, hrest⟩ := hminted role' ((List.mem_cons.mp hrole').resolve_left heq)
        exact ⟨t, (Function.update_of_ne heq ..).trans ht, List.mem_insert_of_mem hmem, hrest⟩

/-- The effects of a cut-over to a row, away from a kid. -/
structure CutOver (oldKid : Kid) (row : SigningKey) (s : Store) : Prop where
  keys : s.secrets .jwtPrivateKey = some row.publicKey ∧ s.secrets .jwtPublicKey = some row.publicKey ∧
    s.secrets .jwtKid = some row.kid
  deleted : ∀ row' ∈ s.rows, row'.kid ≠ row.kid
  retiring : oldKid ≠ row.kid → ∃ row' ∈ s.rows, row'.kid = oldKid ∧ row'.status = .retiring
  minted : Minted row.kid row.publicKey [.anon, .serviceRole] s

theorem finishes_swap (ref : Ref) {row : SigningKey} {oldKid : Kid}
    (hold : ∃ row ∈ s.rows, row.kid = oldKid ∧ row.status = .retiring) :
    (rotation window).Finishes c legal (CutOver oldKid row) (swap ref row row.publicKey) s := by
  refine fun _ _ => ⟨_, _, rfl, fun _ _ => ⟨_, _, rfl, fun _ _ => ⟨_, _, rfl, fun _ _ => ⟨_, _, rfl, ?_⟩⟩⟩⟩
  refine (finishes_remintApiKeys (B := fun s => (s.secrets .jwtPrivateKey = some row.publicKey ∧
      s.secrets .jwtPublicKey = some row.publicKey ∧ s.secrets .jwtKid = some row.kid) ∧
      (∀ row' ∈ s.rows, row'.kid ≠ row.kid) ∧
      (oldKid ≠ row.kid → ∃ row' ∈ s.rows, row'.kid = oldKid ∧ row'.status = .retiring))
    (fun _ _ _ _ => id) ref _ [] ⟨?_, ?_, ?_⟩ nofun).mono fun s' h => ?_
  · simp [Store.setSecret]
  · intro row' hrow'
    simpa using (List.mem_filter.mp hrow').2
  · intro hne
    obtain ⟨row', hrow', hkid, hstatus⟩ := hold
    exact ⟨row', List.mem_filter.mpr ⟨hrow', by simpa [hkid] using hne⟩, hkid, hstatus⟩
  · obtain ⟨⟨hkeys, hdeleted, hretiring⟩, hminted⟩ := h
    exact ⟨hkeys, hdeleted, hretiring, fun role hrole => hminted role (by simpa [or_comm] using hrole)⟩

theorem finishes_keepOld {row : SigningKey} {oldPriv : Option Key} {oldPub : Key} {oldKid : Kid} (ref : Ref) (hI : Inv s)
    (hold : Old oldPriv oldPub oldKid s) :
    (rotation window).Finishes c legal (CutOver oldKid row)
      (keepOld window oldPriv oldPub oldKid (swap ref row row.publicKey)) s := by
  refine fun chance _ => ⟨_, _, rfl, fun chance' _ => ?_⟩
  obtain ⟨s', hexec⟩ : ∃ s', exec c chance' (.insertRetiring oldKid oldPub (chance.now + window)) s = some ((), s') := by
    simp only [exec]
    split <;> exact ⟨_, rfl⟩
  obtain ⟨-, hrow, rows, rfl⟩ := keeps_insertRetiring c chance' hI hold.2.2 hold.2.1 hexec
  refine ⟨_, _, hexec, ?_⟩
  cases oldPriv with
  | none => exact finishes_swap ref hrow
  | some oldPriv =>
      intro chance'' _
      by_cases hstored : (s.secrets (.privateKeyName oldKid)).isSome
      · exact ⟨_, _, if_pos hstored, finishes_swap ref hrow⟩
      · exact ⟨_, _, if_neg hstored, finishes_swap ref hrow⟩

theorem exec_next (chance : Chance) {row : Option SigningKey} (h : s.nextKey = row) :
    exec c chance .next s = some (row, { s with latest := c }) := h ▸ rfl

theorem exec_get (c : Client) (chance : Chance) {name : SecretName} {value : Option Nat} (h : s.secrets name = value) :
    exec c chance (.get name) s = some (value, s) := h ▸ rfl

theorem exec_ref (c : Client) (chance : Chance) {ref : Option Ref} (h : s.ref = ref) : exec c chance .ref s = some (ref, s) := h ▸ rfl

theorem exec_row (chance : Chance) {row : Option SigningKey} (h : (s.rows.find? fun row => row.kid = kid) = row) :
    exec c chance (.row kid) s = some (row, { s with latest := c }) := h ▸ rfl

theorem finishes_cutOver {row : SigningKey} {oldKid : Kid} (hI : Inv s) (hrow : s.nextKey = some row)
    (hkid : s.secrets .jwtKid = some oldKid) (names : Order) (opts : Options)
    (hlegal : ∀ chance, legal chance → opts.force = true ∨ row.publishedAt + opts.minAge ≤ chance.now) :
    (rotation window).Finishes c legal (CutOver oldKid row) (cutOver window names opts) s := by
  have hpriv := hI.next row (List.mem_of_find?_eq_some hrow) (by simpa using List.find?_some hrow)
  obtain ⟨ref, href⟩ := Option.ne_none_iff_exists'.mp hI.ref
  obtain ⟨-, oldPub, -, -, hpub, -⟩ := hI.keys
  refine fun chance _ => ⟨_, _, exec_next chance hrow, fun chance hchance => ⟨_, _, rfl, ?_⟩⟩
  have hwaited : ¬ (!opts.force && decide (chance.now < row.publishedAt + opts.minAge)) = true := by
    rcases hlegal chance hchance with hforce | hwait
    · simp [hforce]
    · simp [Nat.not_lt.mpr hwait]
  beta_reduce
  rw [if_neg hwaited]
  refine finishes_getAll (fun old hread => ?_) (Read.start names _)
  obtain ⟨hpriv', hpub', hkid'⟩ := hread.all
  rw [hpub'.trans hpub, hkid'.trans hkid]
  refine fun chance _ => ⟨_, _, exec_get c chance hpriv, fun chance _ => ⟨_, _, exec_ref c chance href, ?_⟩⟩
  exact finishes_keepOld ref ⟨hI.ref, hI.functional, hI.rows, hI.halves, hI.next, hI.keys, hI.issued⟩
    ⟨hpriv', hpub, hkid⟩

theorem finishes_beginRotation (hlegal : ∀ chance, legal chance → ∀ pair ∈ s.generated, pair.1 ≠ chance.pair.1)
    (hI : Inv s) : (rotation window).Finishes c legal
      (fun s' => ∃ row, s'.nextKey = some row ∧ s'.secrets (.privateKeyName row.kid) = some row.publicKey)
      beginRotation s := by
  cases hrow : s.nextKey with
  | some row =>
      refine fun chance _ => ⟨_, _, exec_next chance hrow, row, hrow, ?_⟩
      exact hI.next row (List.mem_of_find?_eq_some hrow) (by simpa using List.find?_some hrow)
  | none =>
      refine fun chance _ => ⟨_, _, exec_next chance hrow, fun chance hchance => ⟨_, _, rfl, fun _ _ => ?_⟩⟩
      have hnone : s.secrets (.privateKeyName chance.pair.1) = none := by
        by_contra hsome
        obtain ⟨key, hkey⟩ := Option.ne_none_iff_exists'.mp hsome
        exact hlegal chance hchance _ (hI.halves _ key hkey) rfl
      refine ⟨_, _, if_neg (by simp [hnone]), fun chance' _ => ?_⟩
      have hfree : ¬ (s.rows.any fun row => row.kid = chance.pair.1 || row.status = .next) = true := by
        intro hany
        obtain ⟨row, hmem, hkid⟩ := List.any_eq_true.mp hany
        simp only [Bool.or_eq_true, decide_eq_true_eq] at hkid
        rcases hkid with hkid | hstatus
        · exact hlegal chance hchance _ (hI.rows row hmem) hkid
        · exact absurd (List.find?_eq_none.mp hrow row hmem) (by simpa using hstatus)
      refine ⟨_, _, if_neg hfree, ⟨chance.pair.1, chance.pair.2, .next, chance'.now, none⟩, ?_, ?_⟩
      · change (s.rows ++ [_]).find? _ = _
        rw [List.find?_append, show s.rows.find? _ = none from hrow]
        rfl
      · exact Function.update_self ..

theorem finishes_retire {row : SigningKey} (kid : Kid) (force : Bool) (hrow : s.rows.find? (fun row => row.kid = kid) = some row)
    (hlegal : ∀ chance, legal chance → force = true ∨ ∀ t, row.retireAfter = some t → t ≤ chance.now) :
    (rotation window).Finishes c legal (fun s' => ∃ row ∈ s'.rows, row.kid = kid ∧ row.status = .retired)
      (retire kid force) s := by
  have hkid : row.kid = kid := by simpa using List.find?_some hrow
  have hretired : (rotation window).Finishes c legal (fun s' => ∃ row ∈ s'.rows, row.kid = kid ∧ row.status = .retired)
      (.step (.setRetired kid) fun _ => .done) { s with latest := c } := by
    refine fun _ _ => ⟨_, _, rfl, _, List.mem_map_of_mem (List.mem_of_find?_eq_some hrow), ?_⟩
    simp [hkid]
  refine fun chance _ => ⟨_, _, exec_row chance hrow, ?_⟩
  dsimp only
  split
  next hstatus => exact ⟨row, List.mem_of_find?_eq_some hrow, hkid, hstatus⟩
  next => exact hretired
  next =>
    refine fun chance hchance => ⟨_, _, rfl, ?_⟩
    have hopen : ¬ (!force && row.retireAfter.any fun t => chance.now < t) = true := by
      rcases hlegal chance hchance with hforce | hclosed
      · simp [hforce]
      · simpa [Option.any_eq_true] using fun _ t ht => hclosed t ht
    beta_reduce
    rw [if_neg hopen]
    exact hretired

end Completion

section Runs

variable {g : Config Client Store Op Reply}

/-- The moves of runs in which the commands of the rotation come one after the other. -/
def Orderly : Config Client Store Op Reply → Move Client Chance Request → Prop :=
  Protocol.Statements fun c op s => orderly c op s = true

/-- A project that has its first signing key and no other. -/
structure Provisioned (s : Store) : Prop where
  ref : s.ref ≠ none
  keys : ∃ key kid, s.secrets .jwtPrivateKey = some key ∧ s.secrets .jwtPublicKey = some key ∧
    s.secrets .jwtKid = some kid ∧ s.generated = [(kid, key)] ∧ ∀ t ∈ s.issued, t.kid = kid ∧ t.key = key
  halves : ∀ kid, s.secrets (.privateKeyName kid) = none
  rows : s.rows = []
  settled : s.swapping = false

theorem Provisioned.inv (h : Provisioned s) : Inv s := by
  obtain ⟨key, kid, hkey, hpub, hkid, hgenerated, hissued⟩ := h.keys
  refine ⟨h.ref, ?_, by simp [h.rows], fun kid key hk => ?_, by simp [h.rows], ⟨key, key, kid, hkey, hpub, hkid, ?_⟩, ?_⟩
  · rw [hgenerated]
    rintro kid k k' hk hk'
    cases List.mem_singleton.mp hk
    cases List.mem_singleton.mp hk'
    rfl
  · cases (h.halves kid).symm.trans hk
  · rw [Signing, if_neg (by simp [h.settled]), hgenerated]
    exact ⟨rfl, List.mem_singleton_self _⟩
  · intro t ht
    obtain ⟨rfl, rfl⟩ := hissued t ht
    exact ⟨hgenerated ▸ List.mem_singleton_self _, .inl hkid⟩

def Alive (now : Nat) (t : Token) : Prop := t.claims.iat ≤ now ∧ now ≤ t.claims.exp

theorem verify_alive {k : PublishedKey} {now : Nat} {t : Token} (hkid : k.kid = t.kid) (hkey : t.key = k.publicKey)
    (ht : Alive now t) : verify k now t = true := by
  obtain ⟨hiat, hexp⟩ := ht
  have hnow : ¬ t.claims.exp + 60 < now ∧ ¬ now + 60 < t.claims.iat := by omega
  simp [verify, clockTolerance, hkid, hkey, hnow.1, hnow.2]

theorem mem_publishedKeys {k : PublishedKey} : k ∈ s.publishedKeys ↔ k ∈ s.active ∨
    ∃ row ∈ s.rows, (row.status = .next ∨ row.status = .retiring) ∧ ⟨row.kid, row.publicKey, .row row.status⟩ = k := by
  simp only [Store.publishedKeys, List.mem_append, List.mem_map, List.mem_insertionSort, List.mem_filter, Bool.or_eq_true,
    decide_eq_true_eq, and_assoc]

theorem Inv.published (h : Inv s) (hswap : s.swapping = false) {k : PublishedKey} (hk : k ∈ s.publishedKeys) :
    (k.kid, k.publicKey) ∈ s.generated := by
  rcases mem_publishedKeys.mp hk with hactive | ⟨row, hrow, -, rfl⟩
  · obtain ⟨key, kid, -, hpub, hkid, hpair⟩ := h.settled hswap
    rw [Store.active, hpub, hkid] at hactive
    obtain rfl := List.mem_singleton.mp hactive
    exact hpair
  · exact h.rows row hrow

theorem Inv.accepted (h : Inv s) (hswap : s.swapping = false) {t : Token} {now : Nat}
    (hpair : (t.kid, t.key) ∈ s.generated) (hpublished : ∃ k ∈ s.publishedKeys, k.kid = t.kid) (ht : Alive now t) :
    accepted s now t = true := by
  obtain ⟨k, hk, hkid⟩ := hpublished
  refine Bool.and_eq_true_iff.mpr ⟨List.any_eq_true.mpr ⟨k, hk, by simpa using hkid⟩, List.all_eq_true.mpr fun k hk => ?_⟩
  by_cases hkid : k.kid = t.kid
  · have hkey : t.key = k.publicKey := h.functional t.kid _ _ hpair (hkid ▸ h.published hswap hk)
    simp [verify_alive hkid hkey ht]
  · simp [hkid]

theorem Inv.active_published (h : Inv s) (hkid : s.secrets .jwtKid = some kid) : ∃ k ∈ s.publishedKeys, k.kid = kid := by
  obtain ⟨_, pub, _, -, hpub, -⟩ := h.keys
  refine ⟨⟨kid, pub, .active⟩, mem_publishedKeys.mpr (.inl ?_), rfl⟩
  rw [Store.active, hpub, hkid]
  exact List.mem_singleton_self _

/-- The keys that sign make tokens that verify, and so does what they have signed, until its kid is retired. -/
structure Verifiable (s : Store) : Prop where
  signs : ∃ key kid, s.secrets .jwtPrivateKey = some key ∧ s.secrets .jwtKid = some kid ∧
    ∀ claims now, Alive now ⟨key, kid, claims⟩ → accepted s now ⟨key, kid, claims⟩ = true
  issued : ∀ t ∈ s.issued, (s.secrets .jwtKid = some t.kid ∨ ∀ row ∈ s.rows, row.kid = t.kid → row.status ≠ .retired) →
    ∀ now, Alive now t → accepted s now t = true

theorem Inv.verifiable (h : Inv s) (hswap : s.swapping = false) : Verifiable s := by
  obtain ⟨key, kid, hkey, -, hkid, hpair⟩ := h.settled hswap
  refine ⟨⟨key, kid, hkey, hkid, fun claims now => h.accepted hswap hpair (h.active_published hkid)⟩, ?_⟩
  intro t ht hlive now halive
  obtain ⟨hpair, hkid | ⟨row, hrow, hrowkid⟩⟩ := h.issued t ht
  · exact h.accepted hswap hpair (h.active_published hkid) halive
  · rcases hlive with hkid | hlive
    · exact h.accepted hswap hpair (h.active_published hkid) halive
    · refine h.accepted hswap hpair ⟨_, mem_publishedKeys.mpr (.inr ⟨row, hrow, ?_, rfl⟩), hrowkid⟩ halive
      cases hs : row.status with
      | next => exact .inl rfl
      | retiring => exact .inr rfl
      | retired => exact absurd hs (hlive row hrow hrowkid)

/-- Each command of the rotation, run once more and alone, has all of its effects. -/
structure Resumable (window : Nat) (c : Client) (s : Store) : Prop where
  beginRotation : (rotation window).Finishes c (fun chance => ∀ pair ∈ s.generated, pair.1 ≠ chance.pair.1)
    (fun s' => ∃ row, s'.nextKey = some row ∧ s'.secrets (.privateKeyName row.kid) = some row.publicKey)
    SigningKeys.beginRotation s
  cutOver : ∀ row oldKid names opts, s.nextKey = some row → s.secrets .jwtKid = some oldKid →
    (rotation window).Finishes c (fun chance => opts.force = true ∨ row.publishedAt + opts.minAge ≤ chance.now)
      (CutOver oldKid row) (SigningKeys.cutOver window names opts) s
  retire : ∀ row force, (s.rows.find? fun r => r.kid = row.kid) = some row →
    (rotation window).Finishes c (fun chance => force = true ∨ ∀ t, row.retireAfter = some t → t ≤ chance.now)
      (fun s' => ∃ r ∈ s'.rows, r.kid = row.kid ∧ r.status = .retired) (SigningKeys.retire row.kid force) s

theorem Inv.resumable (h : Inv s) : Resumable window c s where
  beginRotation := finishes_beginRotation (fun _ => id) h
  cutOver _ _ names opts hrow hkid := finishes_cutOver h hrow hkid names opts fun _ => id
  retire row force hrow := finishes_retire row.kid force hrow fun _ => id

theorem grants_orderly : order.Grants Orderly := Discipline.grants_statements fun _ _ => trivial

end Runs

section Examples

def firstToken : Token := ⟨10, 1, 5, .anon, 0, projectKeyTtl⟩

/-- A project whose first key has the kid 1. -/
def oneProject : Store where
  ref := some 5
  secrets name := match name with
    | .jwtPrivateKey | .jwtPublicKey => some 10
    | .jwtKid => some 1
    | .privateKeyName _ => none
  rows := []
  apiSecrets _ := some firstToken
  apiKeys := []
  latest := 0
  swapping := false
  generated := [(1, 10)]
  issued := [firstToken]

theorem provisioned_oneProject : Provisioned oneProject where
  ref := by simp [oneProject]
  keys := ⟨10, 1, rfl, rfl, rfl, rfl, by simp [oneProject, firstToken]⟩
  halves _ := rfl
  rows := rfl
  settled := rfl

def inOrder : Order := ⟨signing, .refl _⟩

def forced : Options := ⟨none, true⟩

def run (q : Request) (n : Nat) : List (Move Client Chance Request) :=
  .crash 0 :: .arrive 0 q :: List.replicate n (.run 0 ⟨0, 2, 20⟩)

theorem orderly_watch (g : Config Client Store Op Reply) (m : Move Client Chance Request)
    (hm : Protocol.watch orderly g m = true) : Orderly g m :=
  Protocol.statements_watch (fun _ _ _ => id) g m hm

end Examples

end Corebase.KeyRotation
