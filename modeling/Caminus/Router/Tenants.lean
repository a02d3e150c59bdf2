import Caminus.Common.Unwinding
import Caminus.Resiliency.RateLimiter
import Caminus.Router.Partition

/-!
# The tenant router

`TenantRouter` (`src/router/mod.rs`) admits an event if the quota of its tenant allows it and names
the partition of the tenant. Tenants share one map of buckets and nothing else, so a tenant is
answered as if it were alone (`isolated`), whatever the arithmetic of the buckets.
-/

namespace Caminus

/-- The strategy is the one that `TenantRouter::new` sets. -/
structure TenantRouter (F : Type) where
  router : PartitionRouter
  quotaLimiter : TenantQuotaLimiter F
  tenantPrefix : router.strategy = .tenantPrefix

/-- A call with the instants at which it reads the clock. The first instant of `routeEvent` is read
only if the tenant has no bucket yet. -/
inductive TenantCall (F : Type)
  | routeEvent (created now : ℕ) (event : ChangeEvent)
  | setTenantQuota (now : ℕ) (tenantId : String) (capacity : UInt32) (refillRatePerSec : F)

/-- The tenant that a call concerns; for an event it is what the router takes for the tenant. -/
def TenantCall.tenant {F : Type} : TenantCall F → String
  | .routeEvent _ _ event => PartitionRouter.tenantId event
  | .setTenantQuota _ tenantId _ _ => tenantId

/-- What a call returns. -/
inductive TenantAnswer
  | routed (partition : Option UInt32)
  | quotaSet
deriving DecidableEq, Repr

namespace TenantRouter

variable {F : Type} (serde : SerdeJson) (hash : String → UInt64) (arith : BucketArith F)

/-- A router by tenant, with a quota limiter that has no buckets yet. -/
def new (numPartitions defaultQuotaCapacity : UInt32) (defaultRefillRate : F) : TenantRouter F :=
  ⟨⟨numPartitions, .tenantPrefix⟩, .new defaultQuotaCapacity defaultRefillRate, rfl⟩

/-- `set_tenant_quota`: the tenant gets a new full bucket, also if it had one. -/
def setTenantQuota (tr : TenantRouter F) (now : ℕ) (tenantId : String) (capacity : UInt32)
    (refillRatePerSec : F) : TenantRouter F :=
  { tr with
    quotaLimiter := tr.quotaLimiter.setTenantQuota arith now tenantId capacity refillRatePerSec }

/-- The partition of an allowed event, and nothing if the quota of its tenant is exceeded. -/
def routeEvent (tr : TenantRouter F) (created now : ℕ) (event : ChangeEvent) :
    Option UInt32 × TenantRouter F :=
  let (allowed, quotaLimiter) :=
    tr.quotaLimiter.tryAllow arith created now (PartitionRouter.tenantId event)
  (if allowed then some (tr.router.resolvePartition serde hash event) else none,
    { tr with quotaLimiter := quotaLimiter })

/-- The router, called by one caller at a time. -/
def serve (tr : TenantRouter F) : TenantCall F → TenantAnswer × TenantRouter F
  | .routeEvent created now event =>
      let (partition, tr) := tr.routeEvent serde hash arith created now event
      (.routed partition, tr)
  | .setTenantQuota now tenantId capacity refillRatePerSec =>
      (.quotaSet, tr.setTenantQuota arith now tenantId capacity refillRatePerSec)

/-- A tenant's answers in a run: everything through which other tenants could be noticed. -/
def answersTo (tenant : String) (tr : TenantRouter F) (calls : List (TenantCall F)) :
    List TenantAnswer :=
  Mealy.answers (serve serde hash arith) TenantCall.tenant tenant tr calls

/-- The calls that concern a tenant. -/
def callsOf (tenant : String) (calls : List (TenantCall F)) : List (TenantCall F) :=
  Mealy.inputsOf TenantCall.tenant tenant calls

/-- A tenant gets the answers it would get alone, and a single partition: no call of another tenant
can slow it down or be seen by it. -/
structure Isolated (tr : TenantRouter F) (calls : List (TenantCall F)) (tenant : String) : Prop where
  alone : answersTo serde hash arith tenant tr (callsOf tenant calls) =
    answersTo serde hash arith tenant tr calls
  onePartition : ∀ p q, .routed (some p) ∈ answersTo serde hash arith tenant tr calls →
    .routed (some q) ∈ answersTo serde hash arith tenant tr calls → p = q

/-! ## What a tenant sees -/

/-- The part of the router that decides a tenant's answers. -/
structure TenantView (F : Type) where
  router : PartitionRouter
  defaultCapacity : UInt32
  defaultRefillRate : F
  limiter : Option (TokenBucketLimiter F)

/-- What the router shows of a tenant: its own bucket, and the parameters that never change. -/
def view (tenant : String) (tr : TenantRouter F) : TenantView F where
  router := tr.router
  defaultCapacity := tr.quotaLimiter.defaultCapacity
  defaultRefillRate := tr.quotaLimiter.defaultRefillRate
  limiter := tr.quotaLimiter.tenantLimiters.lookup tenant

/-- The bucket an attempt of the tenant works on. -/
def TenantView.bucket (v : TenantView F) (created : ℕ) : TokenBucketLimiter F :=
  v.limiter.getD (.new arith v.defaultCapacity v.defaultRefillRate created)

/-- A step puts one bucket in the place of the bucket of its tenant. -/
theorem serve_snd (tr : TenantRouter F) (call : TenantCall F) :
    ∃ limiter, (tr.serve serde hash arith call).2 =
      { tr with quotaLimiter := { tr.quotaLimiter with
          tenantLimiters := tr.quotaLimiter.tenantLimiters.insert call.tenant limiter } } := by
  cases call with
  | routeEvent created now event => exact ⟨_, rfl⟩
  | setTenantQuota now tenantId capacity refillRatePerSec => exact ⟨_, rfl⟩

variable {serde hash arith}

/-- The answer to an event, from the view of its tenant. -/
theorem serve_routeEvent (tr : TenantRouter F) (created now : ℕ) (event : ChangeEvent) :
    let attempt := ((tr.view (PartitionRouter.tenantId event)).bucket arith created).tryAcquire
      arith now 1
    (tr.serve serde hash arith (.routeEvent created now event)).1 =
        .routed (if attempt.1 then some (tr.router.resolvePartition serde hash event) else none) ∧
      (tr.serve serde hash arith (.routeEvent created now event)).2.view
          (PartitionRouter.tenantId event) =
        { tr.view (PartitionRouter.tenantId event) with limiter := some attempt.2 } := by
  refine ⟨rfl, ?_⟩
  simp only [view, serve, routeEvent, TenantQuotaLimiter.tryAllow, AList.lookup_insert,
    TenantQuotaLimiter.limiterOf, TenantView.bucket]

/-- Tenants meet in no bucket: the view of a tenant decides its answers, its own calls change it by
itself, and those of others do not change it. -/
theorem unwinds : Mealy.Unwinds (serve serde hash arith) TenantCall.tenant (view (F := F)) where
  output := by
    intro tr tr' call hview
    cases call with
    | setTenantQuota now tenantId capacity refillRatePerSec => rfl
    | routeEvent created now event =>
      have hrouter : tr.router = tr'.router := congrArg TenantView.router hview
      have hevent : tr.view (PartitionRouter.tenantId event) =
        tr'.view (PartitionRouter.tenantId event) := hview
      rw [(serve_routeEvent tr created now event).1, (serve_routeEvent tr' created now event).1,
        hevent, hrouter]
  own := by
    intro tr tr' call hview
    cases call with
    | setTenantQuota now tenantId capacity refillRatePerSec =>
      have hset (r : TenantRouter F) : (r.serve serde hash arith
          (.setTenantQuota now tenantId capacity refillRatePerSec)).2.view tenantId =
          { r.view tenantId with limiter := some (.new arith capacity refillRatePerSec now) } := by
        simp only [view, serve, setTenantQuota, TenantQuotaLimiter.setTenantQuota,
          AList.lookup_insert]
      show view tenantId _ = view tenantId _
      rw [hset tr, hset tr', show tr.view tenantId = tr'.view tenantId from hview]
    | routeEvent created now event =>
      have hevent : tr.view (PartitionRouter.tenantId event) =
        tr'.view (PartitionRouter.tenantId event) := hview
      show view (PartitionRouter.tenantId event) _ = view (PartitionRouter.tenantId event) _
      rw [(serve_routeEvent tr created now event).2, (serve_routeEvent tr' created now event).2,
        hevent]
  others := by
    intro tenant tr call hother
    obtain ⟨limiter, hserve⟩ := serve_snd serde hash arith tr call
    rw [hserve]
    simp only [view, AList.lookup_insert_ne (Ne.symm hother)]

/-! ## Isolation -/

/-- The partition of every event of a tenant. -/
def partitionOfTenant (hash : String → UInt64) (router : PartitionRouter) (tenant : String) : UInt32 :=
  if router.numPartitions ≤ 1 then 0 else PartitionRouter.partitionOf hash router.numPartitions tenant

/-- The partition of an event depends on its tenant alone. -/
theorem resolvePartition_eq (tr : TenantRouter F) (event : ChangeEvent) :
    tr.router.resolvePartition serde hash event =
      partitionOfTenant hash tr.router (PartitionRouter.tenantId event) := by
  rw [PartitionRouter.resolvePartition, tr.tenantPrefix]
  rfl

/-- Every allowed event of a tenant goes to the tenant's partition. -/
theorem eq_partitionOfTenant {tenant : String} {tr : TenantRouter F} {calls : List (TenantCall F)}
    {p : UInt32} (hp : .routed (some p) ∈ answersTo serde hash arith tenant tr calls) :
    p = partitionOfTenant hash tr.router tenant := by
  induction calls generalizing tr with
  | nil => cases hp
  | cons call calls ih =>
    obtain ⟨limiter, hserve⟩ := serve_snd serde hash arith tr call
    have hrouter : (tr.serve serde hash arith call).2.router = tr.router := by rw [hserve]
    rw [answersTo, Mealy.answers] at hp
    by_cases howner : call.tenant = tenant
    · rw [if_pos howner] at hp
      -- the partition was the answer to this call, or to a later one
      rcases List.mem_cons.mp hp with hhead | hlater
      · cases call with
        | setTenantQuota now tenantId capacity refillRatePerSec => cases hhead
        | routeEvent created now event =>
          rw [(serve_routeEvent tr created now event).1] at hhead
          split_ifs at hhead
          · rw [TenantAnswer.routed.injEq, Option.some.injEq, resolvePartition_eq] at hhead
            rw [hhead, ← howner]
            rfl
          · cases hhead
      · rw [← hrouter]
        exact ih hlater
    · rw [if_neg howner] at hp
      rw [← hrouter]
      exact ih hp

/-- **The answers to a tenant depend on its own calls alone**, and its allowed events go to one
partition, for any arithmetic of the buckets and any hash. -/
theorem isolated (serde : SerdeJson) (hash : String → UInt64) (arith : BucketArith F)
    (tr : TenantRouter F) (calls : List (TenantCall F)) (tenant : String) :
    Isolated serde hash arith tr calls tenant where
  alone := unwinds.answers_inputsOf tenant calls rfl
  onePartition := by
    intro p q hp hq
    rw [eq_partitionOfTenant hp, eq_partitionOfTenant hq]

end TenantRouter

end Caminus
