/-
# The routes of the SOC API

`Server.Routes`: every endpoint with the middlewares in front of its handler.  What
chi matches is an endpoint of the table; here is which requests its handler gets.

`reaches_gated_iff` is the authority that a gated handler asks for, and
`failsClosed_iff` says when the API is closed to requests without a token.
-/
import ZtMapper.Rbac.Tokens

open Unordered

namespace Rbac

/-! ## `Routes` -/

inductive Method where
  | get
  | patch
  | post
  deriving DecidableEq, Repr

inductive Handler where
  | health
  | ready
  | listIncidents
  | getIncident
  | listIncidentAudit
  | updateIncidentStatus
  | listActions
  | getAction
  | approveAction
  | rejectAction
  | createFollowUpAction
  | exportAudit
  | getWeeklyReport
  | generateAndStoreWeeklyReport
  deriving DecidableEq, Repr

/-- A middleware in front of a handler. -/
inductive Gate where
  | middleware
  | requireRole (min : Role)
  deriving DecidableEq, Repr

/-- An endpoint: its path by segments, and its middlewares from the outside. -/
structure Endpoint where
  method : Method
  path : List String
  chain : List Gate := []
  handler : Handler
  deriving DecidableEq, Repr

/-- `r.Use`, for the endpoints of a group -/
def use (g : Gate) (endpoints : List Endpoint) : List Endpoint :=
  endpoints.map fun e => { e with chain := g :: e.chain }

/-- `r.Route`, for the endpoints of a mounted router -/
def route (path : List String) (endpoints : List Endpoint) : List Endpoint :=
  endpoints.map fun e => { e with path := path ++ e.path }

def incidentRoutes : List Endpoint :=
  [{ method := .get, path := [], handler := .listIncidents },
    { method := .get, path := ["{id}"], handler := .getIncident },
    { method := .get, path := ["{id}", "audit"], handler := .listIncidentAudit },
    { method := .patch, path := ["{id}", "status"], chain := [.requireRole roleEditor],
      handler := .updateIncidentStatus }]

def actionRoutes : List Endpoint :=
  [{ method := .get, path := [], handler := .listActions },
    { method := .get, path := ["{id}"], handler := .getAction },
    { method := .post, path := ["{id}", "approve"], chain := [.requireRole roleAdmin],
      handler := .approveAction },
    { method := .post, path := ["{id}", "reject"], chain := [.requireRole roleAdmin],
      handler := .rejectAction }]

/-- The group that is protected by `Middleware`. -/
def protectedRoutes : List Endpoint :=
  route ["api", "v1", "incidents"] incidentRoutes ++
    route ["api", "v1", "actions"] actionRoutes ++
    [{ method := .post, path := ["api", "v1", "incidents", "{id}", "follow-up-actions"],
        chain := [.requireRole roleAdmin], handler := .createFollowUpAction },
      { method := .get, path := ["api", "v1", "audit", "export"],
        chain := [.requireRole roleAdmin], handler := .exportAudit },
      { method := .get, path := ["api", "v1", "reports", "weekly"],
        handler := .getWeeklyReport },
      { method := .post, path := ["api", "v1", "reports", "weekly"],
        chain := [.requireRole roleAdmin], handler := .generateAndStoreWeeklyReport }]

def routes : List Endpoint :=
  [{ method := .get, path := ["health"], handler := .health },
    { method := .get, path := ["ready"], handler := .ready }] ++ use .middleware protectedRoutes

/-! ## A request -/

def Gate.run (tokens : TokenMap) (header : List UInt8) :
    Gate → Context → Except Refusal Context
  | .middleware, ctx => Rbac.middleware tokens header ctx
  | .requireRole min, ctx => Rbac.requireRole min ctx

/-- The middlewares in turn, until one refuses. -/
def runChain (tokens : TokenMap) (header : List UInt8) :
    List Gate → Context → Except Refusal Context
  | [], ctx => .ok ctx
  | g :: chain, ctx =>
    match g.run tokens header ctx with
    | .ok ctx' => runChain tokens header chain ctx'
    | .error refusal => .error refusal

/-- A request with this header reaches the handler of the endpoint. -/
def Reaches (env header : List UInt8) (e : Endpoint) : Prop :=
  ∃ ctx, runChain (parseTokens env) header e.chain {} = .ok ctx

/-! ## What the handlers ask for -/

/-- The role that a handler asks for. -/
def required : Handler → Option Role
  | .updateIncidentStatus => some roleEditor
  | .approveAction | .rejectAction | .createFollowUpAction | .exportAudit
  | .generateAndStoreWeeklyReport => some roleAdmin
  | _ => none

/-- An endpoint of the API. -/
def Endpoint.IsApi (e : Endpoint) : Prop := ["api", "v1"] <+: e.path

instance (e : Endpoint) : Decidable e.IsApi := inferInstanceAs (Decidable (_ <+: _))

/-- A request without a configured token reaches no handler of the API. -/
def FailsClosed (env : List UInt8) : Prop :=
  ∀ header, (∀ tok, Configures env tok → header ≠ bearer ++ tok) →
    ∀ e ∈ routes, e.IsApi → ¬ Reaches env header e

variable {env header : List UInt8} {e : Endpoint} {min : Role}

/-- A route with a role is gated by it behind the authentication. -/
theorem chain_of_required (he : e ∈ routes) (hmin : required e.handler = some min) :
    e.chain = [.middleware, .requireRole min] := by
  have hall : ∀ e ∈ routes, ∀ min ∈ required e.handler,
      e.chain = [.middleware, .requireRole min] := by decide
  exact hall e he min hmin

/-- Every required role is above the viewer. -/
theorem one_lt_rank_of_required {h : Handler} (hmin : required h = some min) : 1 < rank min := by
  have heditor : 1 < rank roleEditor := by decide
  have hadmin : 1 < rank roleAdmin := by decide
  cases h <;> cases hmin
  · exact heditor
  all_goals exact hadmin

/-- Every route of the API is behind the authentication. -/
theorem chain_of_isApi (he : e ∈ routes) (hapi : e.IsApi) :
    ∃ chain, e.chain = .middleware :: chain := by
  have hall : ∀ e ∈ routes, e.IsApi → .middleware ∈ e.chain.head? := by decide
  exact ⟨_, List.eq_cons_of_mem_head? (hall e he hapi)⟩

/-- A chain is passed gate by gate. -/
theorem runChain_cons {tokens : TokenMap} {g : Gate} {chain : List Gate} {ctx ctx' : Context} :
    runChain tokens header (g :: chain) ctx = .ok ctx' ↔
      ∃ ctx₁, g.run tokens header ctx = .ok ctx₁ ∧ runChain tokens header chain ctx₁ = .ok ctx' := by
  have hstep : runChain tokens header (g :: chain) ctx =
      match g.run tokens header ctx with
      | .ok ctx₁ => runChain tokens header chain ctx₁
      | .error refusal => .error refusal := rfl
  rw [hstep]
  cases g.run tokens header ctx with
  | ok ctx₁ =>
    constructor
    · exact fun h => ⟨ctx₁, rfl, h⟩
    · rintro ⟨ctx₂, heq, h⟩
      rw [Except.ok.inj heq]
      exact h
  | error refusal => exact iff_of_false (fun h => nomatch h) fun ⟨_, h, _⟩ => nomatch h

/-- A handler behind a gate above the viewer. -/
theorem reaches_of_chain (hchain : e.chain = [.middleware, .requireRole min])
    (hmin : 1 < rank min) :
    Reaches env header e ↔ ∃ tok user role, header = bearer ++ tok ∧ tok ≠ [] ∧
      LastEntry env tok user role ∧ rank min ≤ rank role := by
  -- the second gate only reads the context that the first one has made
  have hgates : Reaches env header e ↔ ∃ ctx,
      middleware (parseTokens env) header {} = .ok ctx ∧ rank min ≤ rank ctx.roleOf := by
    unfold Reaches
    rw [hchain]
    simp only [runChain_cons]
    constructor
    · rintro ⟨_, ctx, hctx, ctx', hrole, -⟩
      exact ⟨ctx, hctx, (requireRole_ok_iff.mp hrole).1⟩
    · rintro ⟨ctx, hctx, hrank⟩
      exact ⟨ctx, ctx, hctx, ctx, requireRole_ok_iff.mpr ⟨hrank, rfl⟩, rfl⟩
  rw [hgates]
  by_cases hempty : parseTokens env = ∅
  · -- everyone is a viewer, and no token is configured
    rw [hempty, middleware_empty]
    have hviewer : rank (Context.roleOf ⟨some (bytes "anonymous"), some roleViewer⟩) = 1 := by
      decide
    constructor
    · rintro ⟨ctx, hctx, hrank⟩
      rw [← Except.ok.inj hctx, hviewer] at hrank
      omega
    · rintro ⟨tok, user, role, -, -, hlast, -⟩
      have hlookup : (parseTokens env).lookup tok = some ⟨user, role⟩ :=
        lookup_parseTokens.mpr hlast
      rw [hempty] at hlookup
      cases hlookup
  · constructor
    · rintro ⟨ctx, hctx, hrank⟩
      obtain ⟨tok, id, hheader, htok, hlookup, rfl⟩ := (middleware_ok_iff hempty).mp hctx
      exact ⟨tok, id.user, id.role, hheader, htok, lookup_parseTokens.mp hlookup,
        (rank_roleOf hmin).mp hrank⟩
    · rintro ⟨tok, user, role, hheader, htok, hlast, hrank⟩
      refine ⟨_, (middleware_ok_iff hempty).mpr
        ⟨tok, ⟨user, role⟩, hheader, htok, lookup_parseTokens.mpr hlast, rfl⟩, ?_⟩
      exact (rank_roleOf hmin).mpr hrank

/-- The authentication is the first gate only. -/
theorem requireRole_of_mem_tail (he : e ∈ routes) {g : Gate} (hg : g ∈ e.chain.tail) :
    g ≠ .middleware := by
  have hall : ∀ e ∈ routes, ∀ g ∈ e.chain.tail, g ≠ .middleware := by decide
  exact hall e he g hg

/-- The gates of roles leave the context as it is. -/
theorem runChain_requireRoles {tokens : TokenMap} {chain : List Gate} {ctx ctx' : Context}
    (hchain : ∀ g ∈ chain, g ≠ .middleware) (hrun : runChain tokens header chain ctx = .ok ctx') :
    ctx' = ctx := by
  induction chain generalizing ctx with
  | nil => exact (Except.ok.inj hrun).symm
  | cons g chain ih =>
    obtain ⟨ctx₁, hpass, hrest⟩ := runChain_cons.mp hrun
    have hctx : ctx₁ = ctx := by
      cases g with
      | middleware => exact absurd rfl (hchain _ List.mem_cons_self)
      | requireRole min => exact (requireRole_ok_iff.mp hpass).2
    rw [hctx] at hrest
    exact ih (fun g' hg' => hchain g' (List.mem_cons_of_mem _ hg')) hrest

/-- Whom a handler of the API serves, when a token is configured: the user of the last
entry of the token, who is anonymous without a name. -/
theorem served_of_runChain (hentry : HasEntry env) (he : e ∈ routes) (hapi : e.IsApi)
    {ctx : Context} (hrun : runChain (parseTokens env) header e.chain {} = .ok ctx) :
    ∃ tok user role, header = bearer ++ tok ∧ LastEntry env tok user role ∧
      ctx.userOf = if user = [] then bytes "anonymous" else user := by
  obtain ⟨chain, hchain⟩ := chain_of_isApi he hapi
  rw [hchain, runChain_cons] at hrun
  obtain ⟨ctx₁, hpass, hrest⟩ := hrun
  have hmiddleware : middleware (parseTokens env) header {} = .ok ctx₁ := hpass
  have hne : parseTokens env ≠ ∅ := fun hempty => parseTokens_eq_empty_iff.mp hempty hentry
  obtain ⟨tok, id, hheader, -, hlookup, rfl⟩ := (middleware_ok_iff hne).mp hmiddleware
  refine ⟨tok, id.user, id.role, hheader, lookup_parseTokens.mp hlookup, ?_⟩
  rw [runChain_requireRoles (fun g hg => ?_) hrest]
  · rfl
  · apply requireRole_of_mem_tail he
    rw [hchain]
    exact hg

/-- The last entry of a token configures it. -/
theorem LastEntry.configures {tok user role : List UInt8} (h : LastEntry env tok user role) :
    Configures env tok := by
  obtain ⟨pre, piece, post, heq, hentry, -⟩ := h
  exact ⟨piece, heq ▸ List.mem_append_right _ List.mem_cons_self, user, role, hentry⟩

/-- A configured token has an entry. -/
theorem Configures.hasEntry {tok : List UInt8} (h : Configures env tok) : HasEntry env := by
  obtain ⟨piece, hpiece, user, role, hentry⟩ := h
  exact ⟨piece, hpiece, user, role, tok, hentry⟩

/-- **The authority of a gated handler.**  A request reaches it exactly with a token
whose last entry has a role of the required rank; without an entry, nothing does. -/
theorem reaches_gated_iff (env header : List UInt8) (he : e ∈ routes)
    (hmin : required e.handler = some min) :
    (Reaches env header e ↔ ∃ tok user role, header = bearer ++ tok ∧ tok ≠ [] ∧
        LastEntry env tok user role ∧ rank min ≤ rank role) ∧
      (¬ HasEntry env → ¬ Reaches env header e) := by
  have hiff : Reaches env header e ↔ _ :=
    reaches_of_chain (chain_of_required he hmin) (one_lt_rank_of_required hmin)
  refine ⟨hiff, fun hnone hreaches => ?_⟩
  obtain ⟨tok, user, role, -, -, hlast, -⟩ := hiff.mp hreaches
  exact hnone hlast.configures.hasEntry

/-- The approve route, told for one setting of the tokens. -/
theorem reaches_gated_iff_approve :
    let env := bytes "alice:viewer:tk1, root:admin:tk3"
    let e : Endpoint := { method := .post, path := ["api", "v1", "actions", "{id}", "approve"],
                          chain := [.middleware, .requireRole roleAdmin], handler := .approveAction }
    (Reaches env (bytes "Bearer tk3") e ↔ ∃ tok user role, bytes "Bearer tk3" = bearer ++ tok ∧
        tok ≠ [] ∧ LastEntry env tok user role ∧ rank roleAdmin ≤ rank role) ∧
      (¬ HasEntry env → ¬ Reaches env (bytes "Bearer tk3") e) :=
  reaches_gated_iff _ _ (by decide) rfl

/-! ## Requests without a token -/

/-- An endpoint of the API refuses every request without a configured token, when one
is configured. -/
theorem not_reaches_of_hasEntry (hentry : HasEntry env) (he : e ∈ routes) (hapi : e.IsApi)
    (hheader : ∀ tok, Configures env tok → header ≠ bearer ++ tok) : ¬ Reaches env header e := by
  rintro ⟨ctx, hrun⟩
  obtain ⟨tok, user, role, heq, hlast, -⟩ := served_of_runChain hentry he hapi hrun
  exact hheader tok hlast.configures heq

/-- The list of incidents. -/
def incidentList : Endpoint :=
  { method := .get, path := ["api", "v1", "incidents"], chain := [.middleware],
    handler := .listIncidents }

/-- The list of incidents is a route. -/
theorem incidentList_mem : incidentList ∈ routes := by decide

/-- Without an entry, every request reads the incidents. -/
theorem reaches_of_not_hasEntry (hentry : ¬ HasEntry env) :
    Reaches env header incidentList := by
  refine ⟨_, runChain_cons.mpr ⟨⟨some (bytes "anonymous"), some roleViewer⟩, ?_, rfl⟩⟩
  unfold Gate.run
  rw [parseTokens_eq_empty_iff.mpr hentry]
  exact middleware_empty

/-- **The API fails closed** exactly when the configuration has a well-formed entry. -/
theorem failsClosed_iff (env : List UInt8) : FailsClosed env ↔ HasEntry env := by
  constructor
  · intro hclosed
    by_contra hentry
    -- a request without a header reads the incidents
    exact hclosed [] (fun tok htok => absurd htok.hasEntry hentry) _ incidentList_mem (by decide)
      (reaches_of_not_hasEntry hentry)
  · exact fun hentry header hheader e he hapi => not_reaches_of_hasEntry hentry he hapi hheader

/-- An entry without a token: the configuration is not blank, and the API is open. -/
theorem not_failsClosed :
    ¬ ∀ env : List UInt8, (∃ piece ∈ env.splitOn comma, trimSpace piece ≠ []) →
      FailsClosed env := by
  intro h
  have hblank : ∃ piece ∈ (bytes "alice:viewer").splitOn comma, trimSpace piece ≠ [] := by decide
  have hentry : ¬ HasEntry (bytes "alice:viewer") := by
    rw [← parseTokens_eq_empty_iff]
    decide
  have hconfigured : ∀ tok, Configures (bytes "alice:viewer") tok → [] ≠ bearer ++ tok :=
    fun tok htok => absurd htok.hasEntry hentry
  exact h _ hblank [] hconfigured _ incidentList_mem (by decide) (reaches_of_not_hasEntry hentry)

end Rbac
