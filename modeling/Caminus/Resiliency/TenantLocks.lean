import Caminus.Common.Linearize
import Caminus.Resiliency.RateLimiter

/-!
# The tenants' buckets behind their lock

`TenantQuotaLimiter` (`src/resiliency/rate_limiter.rs`) keeps its buckets in a map behind a read-write
lock. `try_allow` looks its tenant up under the read lock and keeps the lock for the attempt on the
bucket it has found; without a bucket it drops the lock and looks again under the write lock. Between
the two, other calls may create or replace the bucket. Whatever the order of the steps, the calls are
answered as if each were made in one step, at the moment at which it takes effect (`linearizable`).
-/

namespace Caminus.TenantQuotaLimiter

variable {F : Type}

/-- The number of tenants with a bucket. -/
def tenantCount (q : TenantQuotaLimiter F) : ℕ := q.tenantLimiters.len

/-- The tenant has a bucket. -/
def hasTenantQuota (q : TenantQuotaLimiter F) (tenantId : String) : Bool :=
  (q.tenantLimiters.lookup tenantId).isSome

/-! ## One call after the other -/

/-- The requests that threads make of the limiter. -/
inductive Request (F : Type)
  | tryAllow (tenantId : String)
  | setTenantQuota (tenantId : String) (capacity : UInt32) (refillRatePerSec : F)
  | tenantCount
  | hasTenantQuota (tenantId : String)

/-- A request of a thread, with the instants at which a new bucket is created and at which tokens are
taken. -/
structure Effect (ι F : Type) where
  thread : ι
  request : Request F
  created : ℕ
  now : ℕ

/-- What a request returns; setting a quota returns nothing. -/
inductive Reply
  | allowed (allowed : Bool)
  | quotaSet
  | count (tenants : ℕ)
  | hasQuota (has : Bool)
deriving DecidableEq, Repr

/-- The limiter, called by one caller at a time. -/
def serve {ι : Type} (arith : BucketArith F) (q : TenantQuotaLimiter F) (e : Effect ι F) :
    Reply × TenantQuotaLimiter F :=
  match e.request with
  | .tryAllow tenantId =>
      let (allowed, q) := q.tryAllow arith e.created e.now tenantId
      (.allowed allowed, q)
  | .setTenantQuota tenantId capacity refillRatePerSec =>
      (.quotaSet, q.setTenantQuota arith e.created tenantId capacity refillRatePerSec)
  | .tenantCount => (.count q.tenantCount, q)
  | .hasTenantQuota tenantId => (.hasQuota (q.hasTenantQuota tenantId), q)

/-! ## Many callers -/

/-- The map behind the lock refers to buckets, which have locks of their own. A bucket that has been
replaced is still there for those who hold it. -/
structure Shared (F : Type) where
  tenantLimiters : HashMap String ℕ
  buckets : List (TokenBucketLimiter F)
  defaultCapacity : UInt32
  defaultRefillRate : F

namespace Shared

/-- A map without buckets. -/
def new (defaultCapacity : UInt32) (defaultRefillRate : F) : Shared F :=
  ⟨∅, [], defaultCapacity, defaultRefillRate⟩

/-- A new bucket for a tenant. The one it had before stays where it is for the callers that hold it. -/
def insert (m : Shared F) (tenantId : String) (bucket : TokenBucketLimiter F) : Shared F :=
  { m with
    tenantLimiters := m.tenantLimiters.insert tenantId m.buckets.length
    buckets := m.buckets ++ [bucket] }

/-- An attempt on a bucket, under the locks of the bucket; the map may have a newer bucket by then. -/
def attempt (arith : BucketArith F) (m : Shared F) (now bucket : ℕ) : Bool × Shared F :=
  match m.buckets[bucket]? with
  | some b =>
      let (allowed, b) := b.tryAcquire arith now 1
      (allowed, { m with buckets := m.buckets.set bucket b })
  | none => (false, m)

end Shared

/-- Where a thread stands: between two requests, in `try_allow` with the read lock and the bucket it
has found, or there without a lock after it has found none. -/
inductive Point
  | idle
  | reading (tenantId : String) (bucket : ℕ)
  | missed (tenantId : String)

/-- The shared map, the threads that hold the read lock, and where each thread stands in its
requests. -/
structure Session (ι F : Type) where
  shared : Shared F
  readers : List ι
  point : ι → Point
  requests : ι → List (Request F)

/-- The turn of a thread, with what the clock shows. -/
structure Turn (ι : Type) where
  thread : ι
  created : ℕ
  now : ℕ

namespace Session

variable {ι : Type} [DecidableEq ι] (arith : BucketArith F)

/-- The attempt of `try_allow` on a bucket, which ends the request and gives the read lock back. -/
def finish (s : Session ι F) (turn : Turn ι) (tenantId : String) (shared : Shared F) (bucket : ℕ) :
    Option (Effect ι F × Reply) × Session ι F :=
  let (allowed, shared) := shared.attempt arith turn.now bucket
  (some (⟨turn.thread, .tryAllow tenantId, turn.created, turn.now⟩, .allowed allowed),
    { s with
      shared := shared
      readers := s.readers.erase turn.thread
      point := Function.update s.point turn.thread .idle })

/-- The next step of a thread between two requests. The write lock is given to nobody while there are
readers. -/
def nextRequest (s : Session ι F) (turn : Turn ι) : Option (Effect ι F × Reply) × Session ι F :=
  match s.requests turn.thread with
  | [] => (none, s)
  | request :: rest =>
      let effect : Effect ι F := ⟨turn.thread, request, turn.created, turn.now⟩
      let next := { s with requests := Function.update s.requests turn.thread rest }
      match request with
      | .tryAllow tenantId =>
          match s.shared.tenantLimiters.lookup tenantId with
          | some bucket =>
              (none, { next with
                readers := turn.thread :: s.readers
                point := Function.update s.point turn.thread (.reading tenantId bucket) })
          | none => (none, { next with
              point := Function.update s.point turn.thread (.missed tenantId) })
      | .setTenantQuota tenantId capacity refillRatePerSec =>
          if s.readers.isEmpty then
            (some (effect, .quotaSet), { next with
              shared := s.shared.insert tenantId
                (.new arith capacity refillRatePerSec turn.created) })
          else (none, s)
      | .tenantCount => (some (effect, .count s.shared.tenantLimiters.len), next)
      | .hasTenantQuota tenantId =>
          (some (effect, .hasQuota (s.shared.tenantLimiters.lookup tenantId).isSome), next)

/-- A turn of a thread. In `try_allow` the map is read under the read lock; a thread that finds no
bucket gives it back and looks again under the write lock. -/
def step (s : Session ι F) (turn : Turn ι) : Option (Effect ι F × Reply) × Session ι F :=
  match s.point turn.thread with
  | .idle => s.nextRequest arith turn
  | .reading tenantId bucket => s.finish arith turn tenantId s.shared bucket
  | .missed tenantId =>
      if s.readers.isEmpty then
        match s.shared.tenantLimiters.lookup tenantId with
        | some bucket => s.finish arith turn tenantId s.shared bucket
        | none =>
            s.finish arith turn tenantId
              (s.shared.insert tenantId
                (.new arith s.shared.defaultCapacity s.shared.defaultRefillRate turn.created))
              s.shared.buckets.length
      else (none, s)

/-- Threads with their requests, before any of them has begun. -/
def start (defaultCapacity : UInt32) (defaultRefillRate : F) (requests : ι → List (Request F)) :
    Session ι F :=
  ⟨.new defaultCapacity defaultRefillRate, [], fun _ => .idle, requests⟩

end Session

/-! ## The map from outside -/

/-- The shared map, with its references followed, is the map of `q`; no two tenants share a bucket. -/
structure Shared.Shows (m : Shared F) (q : TenantQuotaLimiter F) : Prop where
  defaultCapacity : m.defaultCapacity = q.defaultCapacity
  defaultRefillRate : m.defaultRefillRate = q.defaultRefillRate
  bucket : ∀ tenant, q.tenantLimiters.lookup tenant =
    (m.tenantLimiters.lookup tenant).bind fun bucket => m.buckets[bucket]?
  valid : ∀ tenant bucket, m.tenantLimiters.lookup tenant = some bucket →
    bucket < m.buckets.length
  distinct : ∀ tenant tenant' bucket, m.tenantLimiters.lookup tenant = some bucket →
    m.tenantLimiters.lookup tenant' = some bucket → tenant = tenant'

namespace Shared.Shows

variable {m : Shared F} {q : TenantQuotaLimiter F}

theorem new (defaultCapacity : UInt32) (defaultRefillRate : F) :
    (Shared.new defaultCapacity defaultRefillRate).Shows (.new defaultCapacity defaultRefillRate) where
  defaultCapacity := rfl
  defaultRefillRate := rfl
  bucket := fun _ => rfl
  valid := by
    intro tenant bucket h
    cases h
  distinct := by
    intro tenant tenant' bucket h
    cases h

/-- A tenant has a bucket on one side exactly if it has one on the other. -/
theorem isSome_lookup (h : m.Shows q) (tenant : String) :
    (m.tenantLimiters.lookup tenant).isSome = (q.tenantLimiters.lookup tenant).isSome := by
  rw [h.bucket tenant]
  cases hbucket : m.tenantLimiters.lookup tenant with
  | none => rfl
  | some bucket =>
    rw [Option.bind_some, List.getElem?_eq_getElem (h.valid tenant bucket hbucket)]
    rfl

/-- The two maps have the same number of tenants. -/
theorem len_eq (h : m.Shows q) : m.tenantLimiters.len = q.tenantLimiters.len := by
  have hperm : m.tenantLimiters.keys.Perm q.tenantLimiters.keys := by
    refine (List.perm_ext_iff_of_nodup m.tenantLimiters.keys_nodup q.tenantLimiters.keys_nodup).mpr ?_
    intro tenant
    have hsome := h.isSome_lookup tenant
    rw [Bool.eq_iff_iff, AList.lookup_isSome, AList.lookup_isSome] at hsome
    exact hsome
  have hlength := hperm.length_eq
  rw [AList.keys, List.keys, List.length_map, AList.keys, List.keys, List.length_map] at hlength
  exact hlength

/-- A new bucket is seen by its tenant alone. -/
theorem insert (h : m.Shows q) (tenant : String) (bucket : TokenBucketLimiter F) :
    (m.insert tenant bucket).Shows
      { q with tenantLimiters := q.tenantLimiters.insert tenant bucket } where
  defaultCapacity := h.defaultCapacity
  defaultRefillRate := h.defaultRefillRate
  bucket := by
    intro tenant'
    by_cases htenant : tenant' = tenant
    · subst htenant
      simp [Shared.insert]
    · rw [AList.lookup_insert_ne htenant, Shared.insert, AList.lookup_insert_ne htenant, h.bucket]
      cases hbucket : m.tenantLimiters.lookup tenant' with
      | none => rfl
      | some b => exact (List.getElem?_append_left (h.valid tenant' b hbucket)).symm
  valid := by
    intro tenant' b hb
    rw [Shared.insert, List.length_append, List.length_singleton]
    by_cases htenant : tenant' = tenant
    · subst htenant
      rw [Shared.insert, AList.lookup_insert, Option.some.injEq] at hb
      omega
    · rw [Shared.insert, AList.lookup_insert_ne htenant] at hb
      exact Nat.lt_succ_of_lt (h.valid tenant' b hb)
  distinct := by
    intro t t' b ht ht'
    -- the number of the new bucket was not used before
    have hold : ∀ {t}, t ≠ tenant → (m.insert tenant bucket).tenantLimiters.lookup t = some b →
        b < m.buckets.length ∧ m.tenantLimiters.lookup t = some b := by
      intro t hne hlookup
      rw [Shared.insert, AList.lookup_insert_ne hne] at hlookup
      exact ⟨h.valid t b hlookup, hlookup⟩
    have hnew : (m.insert tenant bucket).tenantLimiters.lookup tenant = some b →
        b = m.buckets.length := by
      intro hlookup
      rw [Shared.insert, AList.lookup_insert, Option.some.injEq] at hlookup
      exact hlookup.symm
    by_cases htenant : t = tenant <;> by_cases htenant' : t' = tenant
    · rw [htenant, htenant']
    · have := (hold htenant' ht').1
      rw [htenant] at ht
      have := hnew ht
      omega
    · have := (hold htenant ht).1
      rw [htenant'] at ht'
      have := hnew ht'
      omega
    · exact h.distinct t t' b (hold htenant ht).2 (hold htenant' ht').2

/-- An attempt on the bucket of a tenant is the attempt of `try_allow`. -/
theorem attempt (h : m.Shows q) (arith : BucketArith F) {tenant : String} {bucket : ℕ}
    (hbucket : m.tenantLimiters.lookup tenant = some bucket) (created now : ℕ) :
    (m.attempt arith now bucket).1 = (q.tryAllow arith created now tenant).1 ∧
      (m.attempt arith now bucket).2.Shows (q.tryAllow arith created now tenant).2 := by
  have hvalid := h.valid tenant bucket hbucket
  obtain ⟨b, hget⟩ : ∃ b, m.buckets[bucket]? = some b := ⟨_, List.getElem?_eq_getElem hvalid⟩
  have hlookup := h.bucket tenant
  rw [hbucket, Option.bind_some, hget] at hlookup
  have hattempt : m.attempt arith now bucket = ((b.tryAcquire arith now 1).1,
      { m with buckets := m.buckets.set bucket (b.tryAcquire arith now 1).2 }) := by
    rw [Shared.attempt, hget]
  have hallow : q.tryAllow arith created now tenant = ((b.tryAcquire arith now 1).1,
      { q with
        tenantLimiters := q.tenantLimiters.insert tenant (b.tryAcquire arith now 1).2 }) := by
    rw [tryAllow, limiterOf, hlookup]
    rfl
  rw [hattempt, hallow]
  refine ⟨rfl, h.defaultCapacity, h.defaultRefillRate, fun tenant' => ?_, fun tenant' b hb => ?_,
    h.distinct⟩
  · by_cases htenant : tenant' = tenant
    · subst htenant
      rw [AList.lookup_insert, hbucket, Option.bind_some, List.getElem?_set_self hvalid]
    · rw [AList.lookup_insert_ne htenant, h.bucket]
      cases hbucket' : m.tenantLimiters.lookup tenant' with
      | none => rfl
      | some b =>
        -- no two tenants share a bucket, so the others see nothing of it
        have hne : bucket ≠ b := by
          rintro rfl
          exact htenant (h.distinct tenant' tenant bucket hbucket' hbucket)
        exact (List.getElem?_set_ne hne).symm
  · rw [List.length_set]
    exact h.valid tenant' b hb

end Shared.Shows

/-! ## Every step is silent or takes effect at once -/

/-- The bucket that a tenant without one gets is the one `try_allow` would create. -/
theorem tryAllow_insert_default {arith : BucketArith F} {q : TenantQuotaLimiter F} {tenant : String}
    (h : q.tenantLimiters.lookup tenant = none) (created now : ℕ) :
    tryAllow arith { q with
      tenantLimiters := q.tenantLimiters.insert tenant
        (.new arith q.defaultCapacity q.defaultRefillRate created) } created now tenant =
    q.tryAllow arith created now tenant := by
  simp [tryAllow, limiterOf, h]

/-- An attempt changes a bucket, not the map, so it needs no lock on the map. -/
theorem Shared.attempt_tenantLimiters (arith : BucketArith F) (m : Shared F) (now bucket : ℕ) :
    (m.attempt arith now bucket).2.tenantLimiters = m.tenantLimiters := by
  rw [Shared.attempt]
  split <;> rfl

namespace Session

variable {ι : Type} [DecidableEq ι] {arith : BucketArith F} {s : Session ι F}
  {q : TenantQuotaLimiter F} {turn : Turn ι}

/-- The session shows the limiter that a sequential caller would see. Readers hold the lock, so what
they have found is still there. -/
structure Shows (s : Session ι F) (q : TenantQuotaLimiter F) : Prop where
  shared : s.shared.Shows q
  held : ∀ i tenant bucket, s.point i = .reading tenant bucket →
    i ∈ s.readers ∧ s.shared.tenantLimiters.lookup tenant = some bucket

omit [DecidableEq ι] in
/-- Nobody is reading when the write lock is given, so no reader holds a bucket that is replaced
then. -/
theorem Shows.not_reading (h : s.Shows q) (hreaders : s.readers.isEmpty = true) (i : ι)
    (tenant : String) (bucket : ℕ) : s.point i ≠ .reading tenant bucket := by
  intro hpoint
  have hmem := (h.held i tenant bucket hpoint).1
  rw [List.isEmpty_iff.mp hreaders] at hmem
  cases hmem

/-- A thread that reads after somebody else moved was reading before. -/
theorem point_update {point : ι → Point} {i j : ι} {p : Point} {tenant : String} {bucket : ℕ}
    (hp : p ≠ .reading tenant bucket)
    (h : Function.update point i p j = .reading tenant bucket) :
    j ≠ i ∧ point j = .reading tenant bucket := by
  by_cases hij : j = i
  · subst hij
    rw [Function.update_self] at h
    exact absurd h hp
  · rw [Function.update_of_ne hij] at h
    exact ⟨hij, h⟩

/-- The attempt on the bucket of the tenant is the moment at which `try_allow` takes effect. -/
theorem finish_effect {shared : Shared F} (hshared : shared.Shows q) {tenant : String} {bucket : ℕ}
    (hbucket : shared.tenantLimiters.lookup tenant = some bucket)
    (hheld : ∀ j t b, j ≠ turn.thread → s.point j = .reading t b →
      j ∈ s.readers ∧ shared.tenantLimiters.lookup t = some b)
    {e : Effect ι F} {reply : Reply}
    (heffect : (s.finish arith turn tenant shared bucket).1 = some (e, reply)) :
    (serve arith q e).1 = reply ∧
      (s.finish arith turn tenant shared bucket).2.Shows (serve arith q e).2 := by
  obtain ⟨hallowed, hshows⟩ := hshared.attempt arith hbucket turn.created turn.now
  rw [finish, Option.some.injEq, Prod.mk.injEq] at heffect
  obtain ⟨rfl, rfl⟩ := heffect
  refine ⟨congrArg Reply.allowed hallowed.symm, hshows, fun j t b hj => ?_⟩
  obtain ⟨hne, hpoint⟩ := point_update (fun h => Point.noConfusion h) hj
  obtain ⟨hmem, hlookup⟩ := hheld j t b hne hpoint
  refine ⟨(List.mem_erase_of_ne hne).mpr hmem, ?_⟩
  rw [finish]
  exact (congrArg (AList.lookup t) (Shared.attempt_tenantLimiters arith _ _ _)).trans hlookup

/-- The steps of a thread between two requests. -/
theorem Shows.nextRequest (h : s.Shows q) (turn : Turn ι) :
    ((s.nextRequest arith turn).1 = none → (s.nextRequest arith turn).2.Shows q) ∧
    ∀ e reply, (s.nextRequest arith turn).1 = some (e, reply) →
      (serve arith q e).1 = reply ∧ (s.nextRequest arith turn).2.Shows (serve arith q e).2 := by
  rw [Session.nextRequest]
  cases hrequests : s.requests turn.thread with
  | nil => exact ⟨fun _ => h, fun e reply heffect => (by cases heffect)⟩
  | cons request rest =>
    cases request with
    | tryAllow tenant =>
      cases hbucket : s.shared.tenantLimiters.lookup tenant with
      | some bucket =>
        simp only [hbucket]
        refine ⟨fun _ => ⟨h.shared, fun i t b hi => ?_⟩, fun e reply heffect => (by cases heffect)⟩
        by_cases hthread : i = turn.thread
        · subst hthread
          obtain ⟨rfl, rfl⟩ : tenant = t ∧ bucket = b := by simpa using hi
          exact ⟨List.mem_cons_self, hbucket⟩
        · have hpoint : s.point i = .reading t b := by
            simpa [Function.update_of_ne hthread] using hi
          obtain ⟨hmem, hlookup⟩ := h.held i t b hpoint
          exact ⟨List.mem_cons_of_mem _ hmem, hlookup⟩
      | none =>
        simp only [hbucket]
        refine ⟨fun _ => ⟨h.shared, fun i t b hi => ?_⟩, fun e reply heffect => (by cases heffect)⟩
        exact h.held i t b (point_update (fun hp => Point.noConfusion hp) hi).2
    | setTenantQuota tenant capacity rate =>
      cases hreaders : s.readers.isEmpty with
      | false => exact ⟨fun _ => h, fun e reply heffect => (by cases heffect)⟩
      | true =>
        refine ⟨fun hnone => (by cases hnone), fun e reply heffect => ?_⟩
        obtain ⟨rfl, rfl⟩ := Prod.mk.inj (Option.some.inj heffect)
        refine ⟨rfl, h.shared.insert tenant _, fun i t b hi => ?_⟩
        exact absurd hi (h.not_reading hreaders i t b)
    | tenantCount =>
      refine ⟨fun hnone => (by cases hnone), fun e reply heffect => ?_⟩
      obtain ⟨rfl, rfl⟩ := Prod.mk.inj (Option.some.inj heffect)
      exact ⟨congrArg Reply.count h.shared.len_eq.symm, h.shared, h.held⟩
    | hasTenantQuota tenant =>
      refine ⟨fun hnone => (by cases hnone), fun e reply heffect => ?_⟩
      obtain ⟨rfl, rfl⟩ := Prod.mk.inj (Option.some.inj heffect)
      exact ⟨congrArg Reply.hasQuota (h.shared.isSome_lookup tenant).symm, h.shared, h.held⟩

/-- Each turn is silent or serves one request at once. The map may have changed between the two
looks of `try_allow`, which is why the second one looks again. -/
theorem linearized (arith : BucketArith F) :
    Mealy.Linearized (step (ι := ι) arith) (serve arith) Shows where
  silent := by
    intro s q turn h hnone
    rw [step] at hnone ⊢
    cases hpoint : s.point turn.thread with
    | idle =>
      rw [hpoint] at hnone
      exact (h.nextRequest turn).1 hnone
    | reading tenant bucket =>
      rw [hpoint] at hnone
      cases hnone
    | missed tenant =>
      rw [hpoint] at hnone
      simp only at hnone ⊢
      split_ifs at hnone ⊢ with hreaders
      · split at hnone <;> cases hnone
      · exact h
  effect := by
    intro s q turn e reply h heffect
    rw [step] at heffect ⊢
    cases hpoint : s.point turn.thread with
    | idle =>
      rw [hpoint] at heffect
      exact (h.nextRequest turn).2 e reply heffect
    | reading tenant bucket =>
      rw [hpoint] at heffect
      exact finish_effect h.shared (h.held _ _ _ hpoint).2 (fun j t b _ hj => h.held j t b hj) heffect
    | missed tenant =>
      rw [hpoint] at heffect
      simp only at heffect ⊢
      split_ifs at heffect ⊢ with hreaders
      have hheld : ∀ (m : Shared F) j t b, j ≠ turn.thread → s.point j = .reading t b →
          j ∈ s.readers ∧ m.tenantLimiters.lookup t = some b :=
        fun m j t b _ hj => absurd hj (h.not_reading hreaders j t b)
      cases hbucket : s.shared.tenantLimiters.lookup tenant with
      | some bucket =>
        rw [hbucket] at heffect
        exact finish_effect h.shared hbucket (hheld _) heffect
      | none =>
        rw [hbucket] at heffect
        have hnone : q.tenantLimiters.lookup tenant = none := by rw [h.shared.bucket, hbucket]; rfl
        have hinserted := h.shared.insert tenant
          (.new arith s.shared.defaultCapacity s.shared.defaultRefillRate turn.created)
        have hdone := finish_effect hinserted (AList.lookup_insert _) (hheld _) heffect
        -- a bucket that is created under the write lock is the one that a sequential `try_allow`
        -- would create
        have hserve : serve arith { q with
            tenantLimiters := q.tenantLimiters.insert tenant
              (.new arith s.shared.defaultCapacity s.shared.defaultRefillRate turn.created) } e =
            serve arith q e := by
          obtain ⟨rfl, -⟩ := Prod.mk.inj (Option.some.inj heffect)
          rw [h.shared.defaultCapacity, h.shared.defaultRefillRate]
          simp only [serve, tryAllow_insert_default hnone]
        rw [hserve] at hdone
        exact hdone

/-- The requests that took effect in a run, in this order, with their replies. -/
def effects (arith : BucketArith F) (s : Session ι F) (turns : List (Turn ι)) :
    List (Effect ι F × Reply) :=
  Mealy.history (step arith) s turns

/-- What a thread still has to do: the request it is in, and those after it. -/
def unserved (s : Session ι F) (i : ι) : List (Request F) :=
  match s.point i with
  | .idle => s.requests i
  | .reading tenantId _ => .tryAllow tenantId :: s.requests i
  | .missed tenantId => .tryAllow tenantId :: s.requests i

/-- The requests of a thread among the effects. -/
def servedOf (i : ι) (effects : List (Effect ι F × Reply)) : List (Request F) :=
  Mealy.servedOf Effect.thread Effect.request i effects

omit [DecidableEq ι] in
/-- What a thread has still to do depends on where it stands alone. -/
theorem unserved_congr {s s' : Session ι F} {i : ι} (hpoint : s'.point i = s.point i)
    (hrequests : s'.requests i = s.requests i) : s'.unserved i = s.unserved i := by
  rw [unserved, unserved, hpoint, hrequests]

/-- The end of `try_allow` serves the request that its thread is in. -/
theorem served_finish {tenant : String} (hthread : s.unserved turn.thread =
      .tryAllow tenant :: s.requests turn.thread) (shared : Shared F) (bucket : ℕ) (i : ι) :
    servedOf i (s.finish arith turn tenant shared bucket).1.toList ++
      (s.finish arith turn tenant shared bucket).2.unserved i = s.unserved i := by
  by_cases hi : i = turn.thread
  · subst hi
    rw [hthread]
    simp [finish, servedOf, Mealy.servedOf, unserved]
  · have hother : (s.finish arith turn tenant shared bucket).2.unserved i = s.unserved i :=
      unserved_congr (Function.update_of_ne hi _ _) rfl
    rw [hother]
    simp [finish, servedOf, Mealy.servedOf, Ne.symm hi]

/-- The steps between two requests serve at most the first one of their thread. -/
theorem served_nextRequest (hidle : s.point turn.thread = .idle) (i : ι) :
    servedOf i (s.nextRequest arith turn).1.toList ++ (s.nextRequest arith turn).2.unserved i =
      s.unserved i := by
  by_cases hi : i = turn.thread
  · subst hi
    rw [Session.nextRequest]
    cases hrequests : s.requests turn.thread with
    | nil => rfl
    | cons request rest =>
      have hunserved : s.unserved turn.thread = request :: rest := by
        rw [unserved, hidle, hrequests]
      rw [hunserved]
      cases request with
      | tryAllow tenant =>
        cases hbucket : s.shared.tenantLimiters.lookup tenant <;>
          simp [hbucket, servedOf, Mealy.servedOf, unserved]
      | setTenantQuota tenant capacity rate =>
        cases hreaders : s.readers.isEmpty <;> simp [servedOf, Mealy.servedOf, unserved, hidle, hrequests]
      | tenantCount => simp [servedOf, Mealy.servedOf, unserved, hidle]
      | hasTenantQuota tenant => simp [servedOf, Mealy.servedOf, unserved, hidle]
  · rw [Session.nextRequest]
    cases s.requests turn.thread with
    | nil => rfl
    | cons request rest =>
      cases request with
      | tryAllow tenant =>
        cases hbucket : s.shared.tenantLimiters.lookup tenant <;>
          simp [hbucket, servedOf, Mealy.servedOf, unserved, Function.update_of_ne hi]
      | setTenantQuota tenant capacity rate =>
        cases hreaders : s.readers.isEmpty <;>
          simp [servedOf, Mealy.servedOf, unserved, Function.update_of_ne hi, Ne.symm hi]
      | tenantCount => simp [servedOf, Mealy.servedOf, unserved, Function.update_of_ne hi, Ne.symm hi]
      | hasTenantQuota tenant => simp [servedOf, Mealy.servedOf, unserved, Function.update_of_ne hi, Ne.symm hi]

/-- A step serves nothing but the request that its thread is in. -/
theorem served_step (s : Session ι F) (turn : Turn ι) (i : ι) :
    servedOf i (s.step arith turn).1.toList ++ (s.step arith turn).2.unserved i = s.unserved i := by
  rw [step]
  cases hpoint : s.point turn.thread with
  | idle => exact served_nextRequest hpoint i
  | reading tenant bucket => exact served_finish (by rw [unserved, hpoint]) _ _ i
  | missed tenant =>
    simp only
    split_ifs with hreaders
    · cases s.shared.tenantLimiters.lookup tenant with
      | some bucket => exact served_finish (by rw [unserved, hpoint]) _ _ i
      | none => exact served_finish (by rw [unserved, hpoint]) _ _ i
    · rfl

/-- What holds of the effects of a run: the replies are those of the limiter when it is called by one
caller at a time, in the order of the effects; the requests of each thread take effect in their order;
and the buckets are those that the requests, made one after the other, leave. -/
structure Linearizable (arith : BucketArith F) (defaultCapacity : UInt32) (defaultRefillRate : F)
    (requests : ι → List (Request F)) (turns : List (Turn ι)) : Prop where
  replies : ((start defaultCapacity defaultRefillRate requests).effects arith turns).map Prod.snd =
    Mealy.outputs (serve arith) (.new defaultCapacity defaultRefillRate)
      (((start defaultCapacity defaultRefillRate requests).effects arith turns).map Prod.fst)
  inOrder : ∀ i,
    servedOf i ((start defaultCapacity defaultRefillRate requests).effects arith turns) <+: requests i
  buckets : (Mealy.final (step arith) (start defaultCapacity defaultRefillRate requests)
      turns).shared.Shows
    (Mealy.final (serve arith) (.new defaultCapacity defaultRefillRate)
      (((start defaultCapacity defaultRefillRate requests).effects arith turns).map Prod.fst))

/-- **Concurrent callers are answered as if each request were made at once when it takes effect.** -/
theorem linearizable (arith : BucketArith F) (defaultCapacity : UInt32) (defaultRefillRate : F)
    (requests : ι → List (Request F)) (turns : List (Turn ι)) :
    Linearizable arith defaultCapacity defaultRefillRate requests turns := by
  have hstart : (start defaultCapacity defaultRefillRate requests).Shows
      (TenantQuotaLimiter.new defaultCapacity defaultRefillRate) := by
    refine ⟨Shared.Shows.new _ _, fun i tenant bucket hpoint => ?_⟩
    cases hpoint
  obtain ⟨hanswers, hshows⟩ := (linearized arith).history hstart turns
  exact ⟨hanswers, fun i => ⟨_, Mealy.servedOf_history served_step _ turns i⟩, hshows.shared⟩

end Session

end Caminus.TenantQuotaLimiter
