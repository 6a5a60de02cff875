import Corebase.Json
import Mathlib.Algebra.Order.Floor.Ring
import Mathlib.Data.List.Induction
import Mathlib.Data.Rat.Floor

namespace Corebase.RateLimits

open Json (Str str)

/-! The key of a bucket -/

/-- Beyond ASCII only the letters whose lower case has a unit of ASCII are spelled out:
the pattern keeps none of the others. -/
def lowerUnit (u : Nat) : Str :=
  if 65 ≤ u ∧ u ≤ 90 then [u + 32]
  else if u = 0x130 then ['i'.toNat, 0x307]
  else if u = 0x212A then ['k'.toNat]
  else [u]

def toLowerCase (s : Str) : Str := s.flatMap lowerUnit

/-- The class a-z0-9@._- of the pattern. -/
def kept (u : Nat) : Bool :=
  (97 ≤ u && u ≤ 122) || (48 ≤ u && u ≤ 57) || (str "@._-".toList).contains u

def image (u : Nat) : Nat := if kept u then u else '_'.toNat

def sanitize (p : Str) : Str := ((toLowerCase p).map image).take 100

def rateLimitKey (parts : List Str) : Str := [':'.toNat].intercalate (parts.map sanitize)

/-- Within the first hundred units the two texts in lower case differ, and not only in which unit
outside the pattern stands there. -/
def Apart (a b : Str) : Prop :=
  ∃ i < 100, (toLowerCase a)[i]?.map image ≠ (toLowerCase b)[i]?.map image

theorem sanitize_eq_iff (a b : Str) : sanitize a = sanitize b ↔ ¬ Apart a b := by
  constructor
  · rintro h ⟨i, hi, hne⟩
    have hget := congrArg (·[i]?) h
    simp only [sanitize, List.getElem?_take, if_pos hi, List.getElem?_map] at hget
    exact hne hget
  · intro h
    apply List.ext_getElem?
    intro i
    simp only [sanitize, List.getElem?_take, List.getElem?_map]
    by_cases hi : i < 100
    · rw [if_pos hi, if_pos hi]
      by_contra hne
      exact h ⟨i, hi, hne⟩
    · rw [if_neg hi, if_neg hi]

theorem image_ne (u : Nat) : image u ≠ ':'.toNat := by
  rw [image]
  split
  next h =>
    rintro rfl
    revert h
    decide
  next => decide

theorem colon_not_mem {p s : Str} (h : s = sanitize p) : ':'.toNat ∉ s := by
  rintro hm
  rw [h] at hm
  obtain ⟨u, -, hu⟩ := List.mem_map.mp (List.mem_of_mem_take hm)
  exact image_ne u hu

/-- The key says what each part was made into. -/
theorem rateLimitKey_inj {ps qs : List Str} (hp : ps ≠ []) (hq : qs ≠ []) :
    rateLimitKey ps = rateLimitKey qs ↔ ps.map sanitize = qs.map sanitize := by
  constructor
  · intro h
    have hps : ∀ s ∈ ps.map sanitize, ':'.toNat ∉ s := by
      intro s hs
      obtain ⟨p, -, hs⟩ := List.mem_map.mp hs
      exact colon_not_mem hs.symm
    have hqs : ∀ s ∈ qs.map sanitize, ':'.toNat ∉ s := by
      intro s hs
      obtain ⟨p, -, hs⟩ := List.mem_map.mp hs
      exact colon_not_mem hs.symm
    rw [← List.splitOn_intercalate ':'.toNat hps (by simpa using hp),
      ← List.splitOn_intercalate ':'.toNat hqs (by simpa using hq)]
    exact congrArg _ h
  · intro h
    rw [rateLimitKey, rateLimitKey, h]

/-- Two identifiers share a bucket exactly when neither they nor their limiters' names are apart. -/
theorem shares_iff (name name' id id' : Str) :
    rateLimitKey [name, id] = rateLimitKey [name', id'] ↔ ¬ (Apart name name' ∨ Apart id id') := by
  rw [rateLimitKey_inj (List.cons_ne_nil _ _) (List.cons_ne_nil _ _), not_or, ← sanitize_eq_iff, ← sanitize_eq_iff]
  simp

/-! The limiters -/

structure RateLimitResult where
  allowed : Bool
  remaining : Rat
  retryAfterSeconds : Rat

structure RateLimitOptions where
  limit : Rat
  windowSeconds : Rat
  keyPrefix : Str := str "sh:rl:".toList

/-- A limiter over its own state; the times are in milliseconds. -/
structure RateLimiter (State : Type) where
  hit : State → Str → Int → RateLimitResult × State
  reset : State → Str → State

structure Entry where
  count : Nat
  resetAt : Rat

abbrev Hits := Str → Option Entry

namespace Memory

variable (opts : RateLimitOptions)

def fresh (hits : Hits) (key : Str) (now : Int) : RateLimitResult × Hits :=
  (⟨true, opts.limit - 1, opts.windowSeconds⟩,
    Function.update hits key (some ⟨1, now + opts.windowSeconds * 1000⟩))

def hit (hits : Hits) (key : Str) (now : Int) : RateLimitResult × Hits :=
  match hits key with
  | none => fresh opts hits key now
  | some entry =>
      if entry.resetAt ≤ now then fresh opts hits key now
      else
        let count := entry.count + 1
        (⟨count ≤ opts.limit, max 0 (opts.limit - count), ⌈(entry.resetAt - now) / 1000⌉⟩,
          Function.update hits key (some { entry with count }))

def reset (hits : Hits) (key : Str) : Hits := Function.update hits key none

end Memory

def createMemoryRateLimiter (opts : RateLimitOptions) : RateLimiter Hits := ⟨Memory.hit opts, Memory.reset⟩

/-- A counter of the server, with the time it expires at. -/
structure Cell where
  count : Nat
  expires : Option Int

abbrev Db := Str → Option Cell

namespace Redis

variable (gone : Int → Int → Bool)

def live (db : Db) (now : Int) (k : Str) : Option Cell :=
  (db k).filter fun c => !c.expires.any (gone · now)

def incr (db : Db) (now : Int) (k : Str) : Cell :=
  match live gone db now k with
  | none => ⟨1, none⟩
  | some c => { c with count := c.count + 1 }

/-- EXPIRE with NX. A number of seconds that is not whole is an error of this command alone, and one that
is not positive deletes the key. -/
def expire (c : Cell) (now : Int) (seconds : Rat) : Option Cell :=
  if seconds.den ≠ 1 then some c
  else if c.expires.isSome then some c
  else if seconds ≤ 0 then none
  else some { c with expires := some (now + seconds.num * 1000) }

/-- TTL in seconds: -2 without a key and -1 without an expiry. -/
def ttl (now : Int) : Option Cell → Int
  | none => -2
  | some ⟨_, none⟩ => -1
  | some ⟨_, some w⟩ => (w - now + 500) / 1000

variable (opts : RateLimitOptions)

/-- What is made of the replies; without them the hit is allowed. -/
def result (reply : Option (Nat × Int)) : RateLimitResult :=
  let count := reply.elim 0 (·.1)
  let ttlRaw := reply.elim opts.windowSeconds fun r => r.2
  if count = 0 then ⟨true, opts.limit, opts.windowSeconds⟩
  else ⟨count ≤ opts.limit, max 0 (opts.limit - count), if 0 < ttlRaw then ttlRaw else opts.windowSeconds⟩

def hit (db : Db) (key : Str) (now : Int) : RateLimitResult × Db :=
  let k := opts.keyPrefix ++ key
  let c := incr gone db now k
  let left := expire c now opts.windowSeconds
  (result opts (some (c.count, ttl now left)), Function.update db k left)

def reset (db : Db) (key : Str) : Db := Function.update db (opts.keyPrefix ++ key) none

end Redis

def createRateLimiter (gone : Int → Int → Bool) (opts : RateLimitOptions) : RateLimiter Db :=
  ⟨Redis.hit gone opts, Redis.reset opts⟩

inductive Op
  | hit (key : Str) (now : Int)
  | reset (key : Str)

def Op.time : Op → Option Int
  | hit _ now => some now
  | reset _ => none

def InOrder (ops : List Op) : Prop := (ops.filterMap Op.time).Pairwise (· ≤ ·)

/-- Which of the hits are allowed. -/
def answers {State : Type} (l : RateLimiter State) : List Op → State → List Bool
  | [], _ => []
  | .hit key now :: ops, s => (l.hit s key now).1.allowed :: answers l ops (l.hit s key now).2
  | .reset key :: ops, s => answers l ops (l.reset s key)

/-- No hit falls in the very millisecond in which the window of its key ends. -/
def Clear (opts : RateLimitOptions) : List Op → Hits → Prop
  | [], _ => True
  | .hit key now :: ops, hits =>
      (∀ e, 0 < opts.windowSeconds → hits key = some e → e.resetAt ≠ now) ∧
        Clear opts ops (Memory.hit opts hits key now).2
  | .reset key :: ops, hits => Clear opts ops (Memory.reset hits key)

/-! The two limiters in step -/

section

variable {gone : Int → Int → Bool} {opts : RateLimitOptions}

/-- Both have the same windows open, but for windows of the first that are over by now. -/
def Matches (opts : RateLimitOptions) (now : Int) (hits : Hits) (db : Db) : Prop :=
  ∀ key,
    (∃ count, ∃ w : Int, 0 < opts.windowSeconds ∧ hits key = some ⟨count, w⟩ ∧
      db (opts.keyPrefix ++ key) = some ⟨count, some w⟩) ∨
    (db (opts.keyPrefix ++ key) = none ∧ ∀ e, hits key = some e → e.resetAt ≤ now)

theorem result_allowed {count : Nat} {left : Int} (hc : 0 < count) :
    (Redis.result opts (some (count, left))).allowed = decide ((count : Rat) ≤ opts.limit) := by
  have hne : count ≠ 0 := Nat.ne_of_gt hc
  exact congrArg RateLimitResult.allowed (if_neg hne)

theorem incr_pos (db : Db) (now : Int) (k : Str) : 0 < (Redis.incr gone db now k).count := by
  rw [Redis.incr]
  split
  next => exact Nat.one_pos
  next => exact Nat.succ_pos _

theorem redis_allowed (db : Db) (key : Str) (now : Int) :
    (Redis.hit gone opts db key now).1.allowed =
      decide (((Redis.incr gone db now (opts.keyPrefix ++ key)).count : Rat) ≤ opts.limit) :=
  result_allowed (incr_pos db now _)

/-- The window is a whole number of seconds. -/
theorem resetAt_eq (hwhole : opts.windowSeconds.den = 1) (now : Int) :
    (now : Rat) + opts.windowSeconds * 1000 = ((now + opts.windowSeconds.num * 1000 : Int) : Rat) := by
  push_cast
  rw [Rat.coe_int_num_of_den_eq_one hwhole]

theorem matches_update {now : Int} {hits : Hits} {db : Db} {t : Int} (h : Matches opts now hits db)
    (ht : now ≤ t) (key : Str) {e : Option Entry} {c : Option Cell}
    (hnew : (∃ count, ∃ w : Int, 0 < opts.windowSeconds ∧ e = some ⟨count, w⟩ ∧ c = some ⟨count, some w⟩) ∨
      (c = none ∧ ∀ d, e = some d → d.resetAt ≤ t)) :
    Matches opts t (Function.update hits key e) (Function.update db (opts.keyPrefix ++ key) c) := by
  intro k
  by_cases hk : k = key
  · subst hk
    simpa only [Function.update_self] using hnew
  · have hne : opts.keyPrefix ++ k ≠ opts.keyPrefix ++ key := fun heq => hk (List.append_cancel_left heq)
    simp only [Function.update_of_ne hk, Function.update_of_ne hne]
    rcases h k with ⟨count, w, hw, hm, hd⟩ | ⟨hd, hm⟩
    · exact .inl ⟨count, w, hw, hm, hd⟩
    · refine .inr ⟨hd, fun d hd => (hm d hd).trans ?_⟩
      exact_mod_cast ht

/-- Where no window is open both limiters open the same one. -/
theorem matches_fresh (hlimit : 1 ≤ opts.limit) (hwhole : opts.windowSeconds.den = 1) {now t : Int} {hits : Hits}
    {db : Db} {key : Str} (h : Matches opts now hits db) (ht : now ≤ t)
    (hlive : Redis.live gone db t (opts.keyPrefix ++ key) = none) :
    (Redis.hit gone opts db key t).1.allowed = true ∧
      Matches opts t (Memory.fresh opts hits key t).2 (Redis.hit gone opts db key t).2 := by
  have hincr : Redis.incr gone db t (opts.keyPrefix ++ key) = ⟨1, none⟩ := by rw [Redis.incr, hlive]
  constructor
  · rw [redis_allowed, hincr]
    simpa using hlimit
  · simp only [Redis.hit, hincr, Memory.fresh]
    apply matches_update h ht
    by_cases hw : opts.windowSeconds ≤ 0
    · refine .inr ⟨by simp [Redis.expire, hwhole, hw], ?_⟩
      rintro d ⟨⟩
      show (t : Rat) + opts.windowSeconds * 1000 ≤ t
      linarith
    · refine .inl ⟨1, t + opts.windowSeconds.num * 1000, not_le.mp hw, ?_, by simp [Redis.expire, hwhole, hw]⟩
      rw [resetAt_eq hwhole]

/-- One hit is answered alike and leaves the limiters in step. -/
theorem matches_hit (hlive : ∀ w n, n < w → gone w n = false) (hgone : ∀ w n, w < n → gone w n = true)
    (hlimit : 1 ≤ opts.limit) (hwhole : opts.windowSeconds.den = 1) {now t : Int} {hits : Hits} {db : Db} {key : Str}
    (h : Matches opts now hits db) (ht : now ≤ t)
    (hclear : ∀ e, 0 < opts.windowSeconds → hits key = some e → e.resetAt ≠ t) :
    (Memory.hit opts hits key t).1.allowed = (Redis.hit gone opts db key t).1.allowed ∧
      Matches opts t (Memory.hit opts hits key t).2 (Redis.hit gone opts db key t).2 := by
  rcases h key with ⟨count, w, hw, hm, hd⟩ | ⟨hd, hm⟩
  · have hne : (w : Rat) ≠ t := hclear _ hw hm
    by_cases hle : w ≤ t
    · have hlt : w < t := lt_of_le_of_ne hle (by exact_mod_cast hne)
      have hnone : Redis.live gone db t (opts.keyPrefix ++ key) = none := by
        simp [Redis.live, hd, hgone w t hlt]
      have hfresh : Memory.hit opts hits key t = Memory.fresh opts hits key t := by
        simp only [Memory.hit, hm]
        rw [if_pos (by exact_mod_cast hle)]
      obtain ⟨ha, hs⟩ := matches_fresh hlimit hwhole h ht hnone
      rw [hfresh, ha]
      exact ⟨rfl, hs⟩
    · have hcell : Redis.live gone db t (opts.keyPrefix ++ key) = some ⟨count, some w⟩ := by
        simp [Redis.live, hd, hlive w t (not_le.mp hle)]
      have hsome : Redis.incr gone db t (opts.keyPrefix ++ key) = ⟨count + 1, some w⟩ := by
        rw [Redis.incr, hcell]
      have hwr : ¬ (w : Rat) ≤ t := by exact_mod_cast hle
      rw [redis_allowed, hsome]
      simp only [Redis.hit, hsome, Memory.hit, hm, if_neg hwr]
      constructor
      · trivial
      · apply matches_update h ht
        exact .inl ⟨count + 1, w, hw, rfl, by simp [Redis.expire, hwhole]⟩
  · have hnone : Redis.live gone db t (opts.keyPrefix ++ key) = none := by simp [Redis.live, hd]
    have hfresh : Memory.hit opts hits key t = Memory.fresh opts hits key t := by
      rw [Memory.hit]
      split
      next => rfl
      next e he =>
        have hle : e.resetAt ≤ t := (hm e he).trans (by exact_mod_cast ht)
        rw [if_pos hle]
    obtain ⟨ha, hs⟩ := matches_fresh hlimit hwhole h ht hnone
    rw [hfresh, ha]
    exact ⟨rfl, hs⟩

theorem answers_eq (hlive : ∀ w n, n < w → gone w n = false) (hgone : ∀ w n, w < n → gone w n = true)
    (hlimit : 1 ≤ opts.limit) (hwhole : opts.windowSeconds.den = 1) {ops : List Op} (horder : InOrder ops)
    {now : Int} (hnow : ∀ t ∈ ops.filterMap Op.time, now ≤ t) {hits : Hits} {db : Db}
    (h : Matches opts now hits db) (hclear : Clear opts ops hits) :
    answers (createMemoryRateLimiter opts) ops hits = answers (createRateLimiter gone opts) ops db := by
  induction ops generalizing now hits db with
  | nil => rfl
  | cons op ops ih =>
      cases op with
      | hit key t =>
          have ht : now ≤ t := hnow t (List.mem_cons_self ..)
          obtain ⟨hlater, hrest⟩ := List.pairwise_cons.mp horder
          obtain ⟨ha, hs⟩ := matches_hit hlive hgone hlimit hwhole h ht hclear.1
          simp only [answers]
          exact congrArg₂ _ ha (ih hrest hlater hs hclear.2)
      | reset key =>
          have hs := @matches_update opts now hits db now h le_rfl key none none (.inr ⟨rfl, fun d hd => by cases hd⟩)
          exact ih horder hnow hs hclear

/-! Where they part -/

/-- Hits of one bucket at equal distances. -/
def spaced (gap : Int) : Nat → Int → List Op
  | 0, _ => []
  | n + 1, t => .hit [] t :: spaced gap n (t + gap)

theorem spaced_order {gap : Int} (hgap : 0 ≤ gap) (n : Nat) (t : Int) :
    InOrder (spaced gap n t) ∧ ∀ u ∈ (spaced gap n t).filterMap Op.time, t ≤ u := by
  induction n generalizing t with
  | zero => exact ⟨List.Pairwise.nil, List.forall_mem_nil _⟩
  | succ n ih =>
      obtain ⟨horder, hle⟩ := ih (t + gap)
      have hlater : ∀ u ∈ (spaced gap n (t + gap)).filterMap Op.time, t ≤ u := by
        intro u hu
        have := hle u hu
        omega
      exact ⟨List.pairwise_cons.mpr ⟨hlater, horder⟩, List.forall_mem_cons.mpr ⟨le_rfl, hlater⟩⟩

theorem spaced_memory {gap : Int} (hgap : opts.windowSeconds * 1000 < gap) (n : Nat) {t : Int} {hits : Hits}
    (h : ∀ e, hits [] = some e → e.resetAt < t) :
    Clear opts (spaced gap n t) hits ∧
      answers (createMemoryRateLimiter opts) (spaced gap n t) hits = List.replicate n true := by
  induction n generalizing t hits with
  | zero => exact ⟨trivial, rfl⟩
  | succ n ih =>
      have hfresh : Memory.hit opts hits [] t = Memory.fresh opts hits [] t := by
        rw [Memory.hit]
        split
        next => rfl
        next e he => rw [if_pos (h e he).le]
      have hnext : ∀ e, (Memory.fresh opts hits [] t).2 [] = some e → e.resetAt < ((t + gap : Int) : Rat) := by
        intro e he
        simp only [Memory.fresh, Function.update_self, Option.some.injEq] at he
        rw [← he]
        push_cast
        linarith
      obtain ⟨hclear, hall⟩ := ih hnext
      constructor
      · rw [spaced, Clear, hfresh]
        exact ⟨fun e _ he => (h e he).ne, hclear⟩
      · simp only [spaced, answers, createMemoryRateLimiter, hfresh]
        exact congrArg (true :: ·) hall

/-- A window that is not whole is never set: the counter of the server only grows. -/
theorem spaced_redis (hpart : opts.windowSeconds.den ≠ 1) {gap : Int} (n : Nat) {t : Int} {db : Db} {count : Nat}
    (hincr : Redis.incr gone db t (opts.keyPrefix ++ []) = ⟨count + 1, none⟩)
    (hlimit : opts.limit < (count + n + 1 : Nat)) :
    false ∈ answers (createRateLimiter gone opts) (spaced gap (n + 1) t) db := by
  induction n generalizing t db count with
  | zero =>
      apply List.mem_cons.mpr
      left
      have ha : (Redis.hit gone opts db [] t).1.allowed = _ := redis_allowed db [] t
      rw [hincr] at ha
      exact (ha.trans (decide_eq_false (not_le.mpr hlimit))).symm
  | succ n ih =>
      apply List.mem_cons_of_mem
      refine @ih (t + gap) _ (count + 1) ?_ ?_
      · have hset : (Redis.hit gone opts db [] t).2 (opts.keyPrefix ++ []) = some ⟨count + 1, none⟩ := by
          simp only [Redis.hit, hincr, Function.update_self, Redis.expire, if_pos hpart]
        show Redis.incr gone (Redis.hit gone opts db [] t).2 (t + gap) _ = _
        have hlive : Redis.live gone (Redis.hit gone opts db [] t).2 (t + gap) (opts.keyPrefix ++ []) =
            some ⟨count + 1, none⟩ := by
          rw [Redis.live, hset]
          rfl
        rw [Redis.incr, hlive]
      · have hsum : count + (n + 1) + 1 = count + 1 + n + 1 := by omega
        rwa [hsum] at hlimit

end

/-- Buckets are kept apart by what the pattern keeps of the first hundred units, and the two limiters agree
for limits from one on and whole windows. -/
theorem rate_limits (gone : Int → Int → Bool) (hlive : ∀ w n, n < w → gone w n = false)
    (hgone : ∀ w n, w < n → gone w n = true) :
    (∀ name name' id id', rateLimitKey [name, id] ≠ rateLimitKey [name', id'] ↔ Apart name name' ∨ Apart id id') ∧
    ∀ opts : RateLimitOptions,
      (∀ ops, InOrder ops → Clear opts ops (fun _ => none) →
        answers (createMemoryRateLimiter opts) ops (fun _ => none) =
          answers (createRateLimiter gone opts) ops (fun _ => none)) ↔
        1 ≤ opts.limit ∧ opts.windowSeconds.den = 1 := by
  constructor
  · intro name name' id id'
    rw [Ne, shares_iff, not_not]
  · intro opts
    constructor
    · intro h
      constructor
      · have hone := h [.hit [] 0] (List.pairwise_singleton _ _) ⟨fun e _ he => (by cases he), trivial⟩
        have hallowed : true = (Redis.hit gone opts (fun _ => none) [] 0).1.allowed := (List.cons.inj hone).1
        rw [redis_allowed] at hallowed
        simpa [Redis.incr, Redis.live] using hallowed
      · by_contra hpart
        obtain ⟨gap, hpos, hgap⟩ : ∃ gap : Int, 0 ≤ gap ∧ opts.windowSeconds * 1000 < gap := by
          refine ⟨max 0 (⌈opts.windowSeconds * 1000⌉ + 1), le_max_left _ _, ?_⟩
          have hmax : ((⌈opts.windowSeconds * 1000⌉ + 1 : Int) : Rat) ≤
              ((max 0 (⌈opts.windowSeconds * 1000⌉ + 1) : Int) : Rat) := by
            exact_mod_cast le_max_right _ _
          have hceil := Int.le_ceil (opts.windowSeconds * 1000)
          push_cast at hmax ⊢
          linarith
        obtain ⟨hclear, hall⟩ := @spaced_memory opts gap hgap (⌊opts.limit⌋₊ + 1) 0 (fun _ => none) fun e he => by cases he
        have horder := (spaced_order hpos (⌊opts.limit⌋₊ + 1) 0).1
        have hfirst : Redis.incr gone (fun _ => none) 0 (opts.keyPrefix ++ []) = ⟨0 + 1, none⟩ := by
          simp [Redis.incr, Redis.live]
        have hdenied := @spaced_redis gone opts hpart gap ⌊opts.limit⌋₊ 0 _ 0 hfirst
          (by push_cast; simpa using Nat.lt_floor_add_one opts.limit)
        rw [← h _ horder hclear, hall] at hdenied
        exact Bool.false_ne_true (List.eq_of_mem_replicate hdenied)
    · rintro ⟨hlimit, hwhole⟩ ops horder hclear
      have hempty : ∀ now, Matches opts now (fun _ => none) fun _ => none :=
        fun now key => .inr ⟨rfl, fun e he => by cases he⟩
      cases htimes : ops.filterMap Op.time with
      | nil =>
          have hle : ∀ u ∈ ops.filterMap Op.time, 0 ≤ u := by
            rw [htimes]
            exact List.forall_mem_nil _
          exact answers_eq hlive hgone hlimit hwhole horder hle (hempty 0) hclear
      | cons t ts =>
          have hle : ∀ u ∈ ops.filterMap Op.time, t ≤ u := by
            rw [InOrder, htimes] at horder
            rw [htimes]
            exact List.forall_mem_cons.mpr ⟨le_rfl, (List.pairwise_cons.mp horder).1⟩
          exact answers_eq hlive hgone hlimit hwhole horder hle (hempty t) hclear

/-- The accounts a+b@c.de and a!b@c.de have one bucket, and with the limit zero the first hit is allowed by
the limiter in memory alone. -/
theorem buckets_shared :
    rateLimitKey [str "login".toList, str "a+b@c.de".toList] = rateLimitKey [str "login".toList, str "a!b@c.de".toList] ∧
    answers (createMemoryRateLimiter ⟨0, 60, []⟩) [.hit [] 0] (fun _ => none) ≠
      answers (createRateLimiter (fun w n => w < n) ⟨0, 60, []⟩) [.hit [] 0] fun _ => none := by
  constructor
  · decide
  · intro h
    have ha : true = (Redis.hit _ _ _ _ _).1.allowed := (List.cons.inj h).1
    rw [redis_allowed] at ha
    norm_num [Redis.incr, Redis.live] at ha

theorem rate_limits_sample :
    rateLimitKey [str "login".toList, str "ann@c.de".toList] ≠ rateLimitKey [str "login".toList, str "bob@c.de".toList] ∧
    answers (createMemoryRateLimiter ⟨1, 60, []⟩) [.hit [] 0, .hit [] 1] (fun _ => none) =
      answers (createRateLimiter (fun w n => w < n) ⟨1, 60, []⟩) [.hit [] 0, .hit [] 1] fun _ => none := by
  have h := rate_limits (fun w n => w < n) (fun w n h => decide_eq_false (by omega)) fun w n h => decide_eq_true h
  constructor
  · exact (h.1 _ _ _ _).mpr (.inr ⟨0, by decide, by decide⟩)
  · apply (h.2 ⟨1, 60, []⟩).mpr ⟨le_rfl, rfl⟩
    · exact List.pairwise_pair.mpr (by decide)
    · refine ⟨fun e _ he => (by cases he), ?_, trivial⟩
      intro e _ he
      simp only [Memory.hit, Memory.fresh, Function.update_self, Option.some.injEq] at he
      rw [← he]
      norm_num

end Corebase.RateLimits
