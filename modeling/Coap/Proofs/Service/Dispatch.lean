/-
# Where requests go

A router is filled by registrations, in any order and with repeats, and two of them that spell a
path differently are about the same path.  `Routes` says in terms of the registrations alone where
a request goes; the main theorem is that the router sends every request there and nowhere else.

* `Router.Records` : what a router has kept of the registrations, one lemma for a registration and
  one for all of them;
* `Router.lookup_eq_none_iff`, `Router.lookup_eq_some_iff` : what the look-up finds;
* `Router.Records.handler?_eq` : the handler is the one registered last.
-/
import Coap.Service.Handler

namespace Coap

/-! ## Registrations -/

/-- What is registered with a router: a handler for one method, one for the methods without a
handler of their own, or the handler that renders an observable resource. -/
inductive Registration (η : Type)
  | on (path : String) (method : Method) (handler : η)
  | otherwise (path : String) (handler : η)
  | observe (path : String) (handler : η)

namespace Registration

variable {η : Type}

/-- The path a registration is for. -/
def path : Registration η → String
  | on path _ _ => path
  | otherwise path _ => path
  | observe path _ => path

/-- The method a registration is for, if it is for one method. -/
def method? : Registration η → Option Method
  | on _ method _ => some method
  | otherwise _ _ => none
  | observe _ _ => some .get

/-- The handler that is registered. -/
def handler : Registration η → η
  | on _ _ handler => handler
  | otherwise _ handler => handler
  | observe _ handler => handler

/-- Registers a handler with a router. -/
def register (r : Router η) : Registration η → Router η
  | on path method handler => r.on path method handler
  | otherwise path handler => r.otherwise path handler
  | observe path handler => r.on path .get handler

/-- What a registration makes of the route at its path. -/
def extend (x : Registration η) (route : Route η) : Route η :=
  match x.method? with
  | some method => { route with handlers := route.handlers.insert method x.handler }
  | none => { route with fallback? := some x.handler }

/-- To register a handler is to extend the route at its path. -/
theorem register_eq (x : Registration η) (r : Router η) :
    x.register r = ⟨r.routes.alter (Path.segments x.path) {} x.extend⟩ := by
  cases x <;> rfl

/-- A handler for a method takes the place of the one before it. -/
theorem handlers_extend (x : Registration η) (route : Route η) (method : Method) :
    (x.extend route).handlers.get? method =
      if x.method? = some method then some x.handler else route.handlers.get? method := by
  rw [extend]
  split
  · next other hx => simp only [Table.get?_insert, hx, Option.some.injEq]
  · next hx => simp only [hx, reduceCtorEq, if_false]

/-- A handler for all methods does so too, but leaves those for a method. -/
theorem fallback?_extend (x : Registration η) (route : Route η) :
    (x.extend route).fallback? = if x.method? = none then some x.handler else route.fallback? := by
  rw [extend]
  split
  · next other hx => simp only [hx, reduceCtorEq, if_false]
  · next hx => simp only [hx, if_true]

end Registration

/-- Registers handlers with a router, one after the other. -/
def Router.registerAll {η : Type} (r : Router η) (rs : List (Registration η)) : Router η :=
  rs.foldl Registration.register r

/-! ## Where a request goes -/

section

variable {η : Type}

/-- Something was registered at a path with these segments. -/
def RegisteredAt (rs : List (Registration η)) (p : List String) : Prop :=
  ∃ x ∈ rs, Path.segments x.path = p

/-- The handlers that were registered at a path for a method, or for the methods without one, in
the order of their registration. -/
def handlersAt (rs : List (Registration η)) (p : List String) (method? : Option Method) : List η :=
  (rs.filter fun x => Path.segments x.path = p ∧ x.method? = method?).map (·.handler)

/-- The longest beginning of a path at which something was registered, and what is left over. -/
structure LongestAt (rs : List (Registration η)) (path p rest : List String) : Prop where
  split : p ++ rest = path
  registered : RegisteredAt rs p
  longest : ∀ q, q <+: path → RegisteredAt rs q → q.length ≤ p.length

/-- Where a request for a path goes, if it has a method at all: to the longest beginning of the path
at which something was registered, and there to the handler registered last for its method; without
one, to the last of those for the methods without a handler. -/
inductive Routes (rs : List (Registration η)) (path : List String) (method? : Option Method) :
    Dispatch η → Prop
  | notFound (h : ∀ p, p <+: path → ¬ RegisteredAt rs p) : Routes rs path method? .notFound
  | method {p rest : List String} {method : Method} {handler : η} (hp : LongestAt rs path p rest)
      (hmethod : method? = some method)
      (hlast : (handlersAt rs p (some method)).getLast? = some handler) :
      Routes rs path method? (.run handler rest)
  | fallback {p rest : List String} {handler : η} (hp : LongestAt rs path p rest)
      (hmethod : ∀ method, method? = some method → handlersAt rs p (some method) = [])
      (hlast : (handlersAt rs p none).getLast? = some handler) :
      Routes rs path method? (.run handler rest)
  | methodNotAllowed {p rest : List String} (hp : LongestAt rs path p rest)
      (hmethod : ∀ method, method? = some method → handlersAt rs p (some method) = [])
      (hnone : handlersAt rs p none = []) : Routes rs path method? .methodNotAllowed

variable {rs : List (Registration η)} {path p rest : List String} {method? : Option Method}

/-- The latest handler comes last. -/
theorem handlersAt_concat (x : Registration η) :
    handlersAt (rs ++ [x]) p method? = handlersAt rs p method? ++
      if Path.segments x.path = p ∧ x.method? = method? then [x.handler] else [] := by
  rw [handlersAt, List.filter_append, List.map_append, ← handlersAt, List.filter_cons]
  simp only [decide_eq_true_eq]
  split <;> rfl

/-- A path is registered when a handler is registered at it. -/
theorem registeredAt_concat (x : Registration η) :
    RegisteredAt (rs ++ [x]) p ↔ RegisteredAt rs p ∨ Path.segments x.path = p := by
  simp [RegisteredAt, or_and_right, exists_or]

end

/-! ## What a router keeps -/

namespace Router

variable {η : Type} {r : Router η} {rs : List (Registration η)} {path p rest : List String}
  {method? : Option Method} {route : Route η} {k n : Nat}

/-- The route at a path, with no handlers if there is none. -/
def routeAt (r : Router η) (p : List String) : Route η := (r.routes.get? p).getD {}

/-- A router has a route exactly where something was registered, with the handlers that were
registered last. -/
structure Records (r : Router η) (rs : List (Registration η)) : Prop where
  registered : ∀ p, (r.routes.get? p).isSome ↔ RegisteredAt rs p
  handlers : ∀ p method,
    (r.routeAt p).handlers.get? method = (handlersAt rs p (some method)).getLast?
  fallback : ∀ p, (r.routeAt p).fallback? = (handlersAt rs p none).getLast?

/-- An empty router keeps no registrations. -/
theorem records_empty : (empty : Router η).Records [] where
  registered := fun p => by simp [RegisteredAt, empty]
  handlers := fun _ _ => rfl
  fallback := fun _ => rfl

/-- A registration changes the route at its path and no other one. -/
theorem routeAt_register (r : Router η) (x : Registration η) (p : List String) :
    (x.register r).routeAt p =
      if Path.segments x.path = p then x.extend (r.routeAt p) else r.routeAt p := by
  rw [Registration.register_eq, routeAt, Table.alter, Table.get?_insert]
  split
  · next hp => rw [hp, Option.getD_some, routeAt]
  · rw [routeAt]

/-- There is a route where one was, and where a handler is registered. -/
theorem isSome_get?_register (r : Router η) (x : Registration η) (p : List String) :
    ((x.register r).routes.get? p).isSome ↔
      (r.routes.get? p).isSome ∨ Path.segments x.path = p := by
  rw [Registration.register_eq, Table.alter, Table.get?_insert]
  split
  · next hp => simp [hp]
  · next hp => simp [hp]

/-- A router keeps one registration more. -/
theorem Records.register (h : r.Records rs) (x : Registration η) :
    (x.register r).Records (rs ++ [x]) where
  registered := fun p => by
    rw [isSome_get?_register, registeredAt_concat, h.registered]
  handlers := fun p method => by
    rw [routeAt_register, handlersAt_concat, List.getLast?_append, ← h.handlers]
    by_cases hp : Path.segments x.path = p
    · simp only [hp, if_true, true_and, Registration.handlers_extend]
      split <;> rfl
    · simp [hp]
  fallback := fun p => by
    rw [routeAt_register, handlersAt_concat, List.getLast?_append, ← h.fallback]
    by_cases hp : Path.segments x.path = p
    · simp only [hp, if_true, true_and, Registration.fallback?_extend]
      split <;> rfl
    · simp [hp]

/-- A router keeps as many registrations as are made. -/
theorem Records.registerAll {before : List (Registration η)} (h : r.Records before)
    (rs : List (Registration η)) : (r.registerAll rs).Records (before ++ rs) := by
  induction rs generalizing r before with
  | nil => rwa [List.append_nil]
  | cons x rest ih =>
    have hrest := ih (h.register x)
    rwa [List.append_assoc, List.singleton_append] at hrest

/-! ## The longest beginning -/

/-- Nothing is found if there is no route at any beginning of the path. -/
theorem lookup_eq_none_iff :
    r.lookup path n = none ↔ ∀ j, j ≤ n → r.routes.get? (path.take j) = none := by
  induction n with
  | zero => simp [lookup]
  | succ n ih =>
    rw [lookup]
    cases hroute : r.routes.get? (path.take (n + 1)) with
    | some route =>
      refine iff_of_false nofun fun hnone => ?_
      rw [hnone (n + 1) (Nat.le_refl _)] at hroute
      cases hroute
    | none =>
      rw [ih]
      constructor
      · intro hnone j hj
        rcases Nat.lt_or_eq_of_le hj with hj | rfl
        · exact hnone j (Nat.le_of_lt_succ hj)
        · exact hroute
      · exact fun hnone j hj => hnone j (Nat.le_succ_of_le hj)

/-- What is found is the route at the longest beginning that has one. -/
theorem lookup_eq_some_iff :
    r.lookup path n = some (route, k) ↔ k ≤ n ∧ r.routes.get? (path.take k) = some route ∧
      ∀ j, k < j → j ≤ n → r.routes.get? (path.take j) = none := by
  induction n with
  | zero =>
    constructor
    · intro hlookup
      obtain ⟨route', hroute, heq⟩ := Option.map_eq_some_iff.mp hlookup
      cases heq
      exact ⟨Nat.le_refl _, hroute, fun j hj hj' => absurd hj (Nat.not_lt.mpr hj')⟩
    · rintro ⟨hk, hroute, -⟩
      obtain rfl := Nat.le_zero.mp hk
      exact Option.map_eq_some_iff.mpr ⟨route, hroute, rfl⟩
  | succ n ih =>
    rw [lookup]
    cases hroute : r.routes.get? (path.take (n + 1)) with
    | some route' =>
      constructor
      · rintro ⟨⟩
        exact ⟨Nat.le_refl _, hroute, fun j hj hj' => absurd hj (Nat.not_lt.mpr hj')⟩
      · rintro ⟨hk, hk', hlonger⟩
        -- nothing shorter is looked at
        rcases Nat.lt_or_eq_of_le hk with hk | rfl
        · rw [hlonger (n + 1) hk (Nat.le_refl _)] at hroute
          cases hroute
        · rw [hroute] at hk'
          cases hk'
          rfl
    | none =>
      rw [ih]
      constructor
      · rintro ⟨hk, hk', hlonger⟩
        refine ⟨Nat.le_succ_of_le hk, hk', fun j hj hj' => ?_⟩
        rcases Nat.lt_or_eq_of_le hj' with hj' | rfl
        · exact hlonger j hj (Nat.le_of_lt_succ hj')
        · exact hroute
      · rintro ⟨hk, hk', hlonger⟩
        refine ⟨?_, hk', fun j hj hj' => hlonger j hj (Nat.le_succ_of_le hj')⟩
        rcases Nat.lt_or_eq_of_le hk with hk | rfl
        · exact Nat.le_of_lt_succ hk
        · rw [hroute] at hk'
          cases hk'

namespace Records

/-- Where nothing was registered, there is no route. -/
theorem get?_eq_none_iff (h : r.Records rs) : r.routes.get? p = none ↔ ¬ RegisteredAt rs p := by
  rw [← h.registered, Option.not_isSome_iff_eq_none]

/-- Nothing is found exactly if nothing was registered at any beginning of the path. -/
theorem lookup_eq_none_iff (h : r.Records rs) :
    r.lookup path path.length = none ↔ ∀ p, p <+: path → ¬ RegisteredAt rs p := by
  rw [Router.lookup_eq_none_iff]
  constructor
  · intro hnone p hp
    rw [← h.get?_eq_none_iff, List.prefix_iff_eq_take.mp hp]
    exact hnone _ hp.length_le
  · exact fun hnone j _ => h.get?_eq_none_iff.mpr (hnone _ (List.take_prefix j path))

/-- What is found is the route at the longest beginning at which something was registered. -/
theorem lookup_eq_some_iff (h : r.Records rs) :
    r.lookup path path.length = some (route, k) ↔ k ≤ path.length ∧
      LongestAt rs path (path.take k) (path.drop k) ∧
      r.routeAt (path.take k) = route := by
  rw [Router.lookup_eq_some_iff]
  refine and_congr_right fun hk => ?_
  constructor
  · rintro ⟨hroute, hlonger⟩
    refine ⟨⟨List.take_append_drop k path, (h.registered _).mp ?_, ?_⟩, ?_⟩
    · rw [hroute, Option.isSome_some]
    · intro q hq hregistered
      rw [List.length_take_of_le hk]
      refine Nat.le_of_not_lt fun hlong => ?_
      have hnone := hlonger q.length hlong hq.length_le
      rw [← List.prefix_iff_eq_take.mp hq, h.get?_eq_none_iff] at hnone
      exact hnone hregistered
    · rw [routeAt, hroute, Option.getD_some]
  · rintro ⟨hlong, hroute⟩
    refine ⟨?_, fun j hj hj' => ?_⟩
    · obtain ⟨route', hroute'⟩ :=
        Option.isSome_iff_exists.mp ((h.registered _).mpr hlong.registered)
      rw [hroute', ← hroute, routeAt, hroute', Option.getD_some]
    · rw [h.get?_eq_none_iff]
      intro hregistered
      have hle := hlong.longest _ (List.take_prefix j path) hregistered
      rw [List.length_take_of_le hk, List.length_take_of_le hj'] at hle
      omega

/-- The lookup finds the longest registered beginning. -/
theorem lookup_of_longestAt (h : r.Records rs) (hp : LongestAt rs path p rest) :
    r.lookup path path.length = some (r.routeAt p, p.length) := by
  have hpath := hp.split
  subst hpath
  refine h.lookup_eq_some_iff.mpr ⟨by simp, ?_, ?_⟩
  · rwa [List.take_left, List.drop_left]
  · rw [List.take_left]

/-- The handler of a route is the latest for the method, or else the latest for all methods. -/
theorem handler?_eq (h : r.Records rs) (p : List String) (method? : Option Method) :
    (r.routeAt p).handler? method? =
      (method?.bind fun method => (handlersAt rs p (some method)).getLast?).or
        (handlersAt rs p none).getLast? := by
  rw [Route.handler?, h.fallback]
  congr 2
  funext method
  exact h.handlers p method

/-- No handler was registered at a path for the method of a request, if it has one. -/
theorem last?_eq_none_iff :
    (method?.bind fun method => (handlersAt rs p (some method)).getLast?) = none ↔
      ∀ method, method? = some method → handlersAt rs p (some method) = [] := by
  simp only [Option.bind_eq_none_iff, List.getLast?_eq_none_iff]

/-- A handler is found if it is the latest of the one kind, or of the other and there is none of the
first. -/
theorem handler?_eq_some_iff (h : r.Records rs) {handler : η} :
    (r.routeAt p).handler? method? = some handler ↔
      (∃ method, method? = some method ∧
        (handlersAt rs p (some method)).getLast? = some handler) ∨
      (∀ method, method? = some method → handlersAt rs p (some method) = []) ∧
        (handlersAt rs p none).getLast? = some handler := by
  rw [h.handler?_eq, Option.or_eq_some_iff, last?_eq_none_iff, Option.bind_eq_some_iff]

/-- None is found if there is none of either kind. -/
theorem handler?_eq_none_iff (h : r.Records rs) :
    (r.routeAt p).handler? method? = none ↔
      (∀ method, method? = some method → handlersAt rs p (some method) = []) ∧
        handlersAt rs p none = [] := by
  rw [h.handler?_eq, Option.or_eq_none_iff, last?_eq_none_iff, List.getLast?_eq_none_iff]

/-! ## The way of a request -/

variable {m : Message} {d : Dispatch η}

/-- A request goes to the handler at the longest beginning. -/
theorem dispatch_of_handler (h : r.Records rs) {handler : η}
    (hp : LongestAt rs (Path.segments m.uriPath) p rest)
    (hhandler : (r.routeAt p).handler? m.method? = some handler) :
    r.dispatch m = .run handler rest := by
  have hrest : (Path.segments m.uriPath).drop p.length = rest := by
    rw [← hp.split, List.drop_left]
  simp only [dispatch, h.lookup_of_longestAt hp, hhandler, hrest]

/-- Without a handler at the longest beginning, it goes to none at a shorter one. -/
theorem dispatch_of_no_handler (h : r.Records rs)
    (hp : LongestAt rs (Path.segments m.uriPath) p rest)
    (hhandler : (r.routeAt p).handler? m.method? = none) :
    r.dispatch m = .methodNotAllowed := by
  simp only [dispatch, h.lookup_of_longestAt hp, hhandler]

/-- A router sends a request nowhere else. -/
theorem dispatch_of_routes (h : r.Records rs)
    (hd : Routes rs (Path.segments m.uriPath) m.method? d) : r.dispatch m = d := by
  cases hd with
  | notFound hnone => simp only [dispatch, h.lookup_eq_none_iff.mpr hnone]
  | method hp hmethod hlast =>
    exact h.dispatch_of_handler hp (h.handler?_eq_some_iff.mpr (.inl ⟨_, hmethod, hlast⟩))
  | fallback hp hmethod hlast =>
    exact h.dispatch_of_handler hp (h.handler?_eq_some_iff.mpr (.inr ⟨hmethod, hlast⟩))
  | methodNotAllowed hp hmethod hnone =>
    exact h.dispatch_of_no_handler hp (h.handler?_eq_none_iff.mpr ⟨hmethod, hnone⟩)

/-- A router sends a request where it has to go. -/
theorem routes_dispatch (h : r.Records rs) (m : Message) :
    Routes rs (Path.segments m.uriPath) m.method? (r.dispatch m) := by
  cases hlookup : r.lookup (Path.segments m.uriPath) (Path.segments m.uriPath).length with
  | none =>
    simp only [dispatch, hlookup]
    exact .notFound (h.lookup_eq_none_iff.mp hlookup)
  | some found =>
    obtain ⟨route, k⟩ := found
    obtain ⟨-, hp, rfl⟩ := h.lookup_eq_some_iff.mp hlookup
    cases hhandler : (r.routeAt ((Path.segments m.uriPath).take k)).handler? m.method? with
    | some handler =>
      rw [h.dispatch_of_handler hp hhandler]
      rcases h.handler?_eq_some_iff.mp hhandler with ⟨method, hmethod, hlast⟩ | ⟨hmethod, hlast⟩
      · exact .method hp hmethod hlast
      · exact .fallback hp hmethod hlast
    | none =>
      rw [h.dispatch_of_no_handler hp hhandler]
      obtain ⟨hmethod, hnone⟩ := h.handler?_eq_none_iff.mp hhandler
      exact .methodNotAllowed hp hmethod hnone

end Records

/-- A router that was built from nothing keeps just what was registered. -/
theorem records_registerAll (rs : List (Registration η)) :
    ((empty : Router η).registerAll rs).Records rs :=
  records_empty.registerAll rs

/-- **Every request goes to the longest path that was registered for it.**  Whatever was registered,
in whatever order and spelling, a request goes to one place.  If nothing was registered at any
beginning of its path it fails with 4.04.  Otherwise the longest beginning at which something was
registered decides: the handler that was registered there last for the method of the request gets
it, or else the last one for the methods without a handler, with the rest of the path left over;
and if there is neither, the request fails with 4.05. -/
theorem dispatched_by_longest (rs : List (Registration η)) (call : η → Service)
    (request : Request) :
    let r := (empty : Router η).registerAll rs
    ∃ d, (∀ d', Routes rs (Path.segments request.message.uriPath) request.message.method? d' ↔
        d' = d) ∧
      r.dispatch request.message = d ∧
      match d with
      | .notFound => ∃ text,
        r.service call request = { reaction := .fail (.of .notFound text) }
      | .methodNotAllowed => ∃ text,
        r.service call request = { reaction := .fail (.of .methodNotAllowed text) }
      | .run handler rest =>
        r.service call request = call handler { request with unmatched := rest } := by
  intro r
  have h : r.Records rs := records_registerAll rs
  refine ⟨r.dispatch request.message, fun d' => ⟨fun hd => (h.dispatch_of_routes hd).symm, ?_⟩,
    rfl, ?_⟩
  · rintro rfl
    exact h.routes_dispatch request.message
  · cases hd : r.dispatch request.message with
    | notFound => exact ⟨_, by rw [service, hd]; rfl⟩
    | methodNotAllowed => exact ⟨_, by rw [service, hd]; rfl⟩
    | run handler rest => rw [service, hd]

/-- Two paths in five spellings.  The handler that was registered last gets a request, and the
longer path decides also where it has no handler for the method and the shorter one has. -/
theorem dispatched_by_longest_of_spellings :
    let rs : List (Registration String) :=
      [.on "/" .put "root", .observe "a//b/" "light", .on "//a/b" .get "lamp",
        .on "a/b//" .post "switch", .on "" .get "home"]
    let call (name : String) : Service := fun _ => { handler? := some name, reaction := .hold }
    let request (method : Method) : Request :=
      ⟨((Message.request .confirmable method).setUriPath "/a/b/c").message, ⟨1⟩, []⟩
    let r := (empty : Router String).registerAll rs
    r.service call (request .get) = call "lamp" { request .get with unmatched := ["c"] } ∧
      ∃ text,
        r.service call (request .put) = { reaction := .fail (.of .methodNotAllowed text) } := by
  intro rs call request r
  have hpath (method : Method) :
      Path.segments (request method).message.uriPath = ["a", "b"] ++ ["c"] := by
    cases method <;> decide +kernel
  have hlongest (method : Method) :
      LongestAt rs (Path.segments (request method).message.uriPath) ["a", "b"] ["c"] := by
    have hshort : ∀ x ∈ rs, (Path.segments x.path).length ≤ 2 := by decide +kernel
    refine ⟨(hpath method).symm, ⟨.observe "a//b/" "light", by simp [rs], by decide +kernel⟩, ?_⟩
    rintro q - ⟨x, hx, rfl⟩
    exact hshort x hx
  constructor
  · obtain ⟨d, honly, -, hservice⟩ := dispatched_by_longest rs call (request .get)
    have hlast : (handlersAt rs ["a", "b"] (some .get)).getLast? = some "lamp" := by
      decide +kernel
    obtain rfl := (honly _).mp (.method (hlongest .get) rfl hlast)
    exact hservice
  · obtain ⟨d, honly, -, hservice⟩ := dispatched_by_longest rs call (request .put)
    have hnone (method : Method) (h : (request .put).message.method? = some method) :
        handlersAt rs ["a", "b"] (some method) = [] := by
      obtain rfl : .put = method := Option.some.inj h
      decide +kernel
    obtain rfl := (honly _).mp (.methodNotAllowed (hlongest .put) hnone (by decide +kernel))
    exact hservice

end Router

end Coap
