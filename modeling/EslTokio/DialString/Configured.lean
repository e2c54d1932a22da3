import EslTokio.DialString.LoneBlock

/-!
# Configured endpoints

What a configuration load accepts of an endpoint, said field by field, arrives as built at every
target; and what a parse accepts, of any text, a load accepts too. A module text joins fields with
chars that open no reference, so it names a variable only where one of its fields does.

* `Endpoint.fields` — the texts a caller sets of an endpoint.
* `Endpoint.Built` — an endpoint a load accepts, whose fields hold no terminator and name no
  variable.
* **`Endpoint.endpoint_arrives`** — what the switch and a parse read of it, expanded there or not.
* **`parsed_loads`** — endpoints and blocks that were parsed can be loaded.
-/

namespace EslTokio

open Library SwitchPasses

/-! ### Fields and module texts -/

theorem varCheckFrom_joined {sep : Char} (hsep : sep ∉ ['$', '{', '\\']) (dollar : Bool)
    (text rest : Text) :
    varCheckFrom dollar (text ++ sep :: rest) =
      (varCheckFrom dollar text || varCheckFrom false rest) := by
  simp only [List.mem_cons, List.not_mem_nil, or_false, not_or] at hsep
  obtain ⟨hdollar, hbrace, hbackslash⟩ := hsep
  induction text generalizing dollar with
  | nil =>
      have hbehind : varCheckFrom dollar (sep :: rest) = varCheckFrom false rest := by
        simp [varCheckFrom, hdollar, hbrace, hbackslash]
      exact hbehind
  | cons c text ih =>
      rw [List.cons_append]
      simp only [varCheckFrom, ih]
      split_ifs <;> rfl

/-- A char that opens no reference parts what two texts name. -/
theorem namesAVariable_joined {sep : Char} (hsep : sep ∉ ['$', '{', '\\']) (text rest : Text) :
    namesAVariable (text ++ sep :: rest) = (namesAVariable text || namesAVariable rest) :=
  varCheckFrom_joined hsep false text rest

/-- A text without a dollar names no variable. -/
theorem namesAVariable_plain {text : Text} (h : '$' ∉ text) : namesAVariable text = false := by
  have hscan : ∀ text : Text, '$' ∉ text → varCheckFrom false text = false := by
    intro text hfree
    induction text with
    | nil => rfl
    | cons c text ih =>
        rw [List.mem_cons, not_or] at hfree
        simp [varCheckFrom, Ne.symm hfree.1, ih hfree.2]
  exact hscan text h

namespace Endpoint

/-- The texts a caller sets of an endpoint. -/
def fields : Endpoint → List Text
  | .sofia ep => [ep.profile, ep.destination]
  | .sofiaGateway ep => ep.gateway :: ep.destination :: ep.profile.toList
  | .loopback ep => ep.extension :: (ep.context.toList ++ ep.dialplan.toList)
  | .user ep => ep.name :: ep.domain.toList
  | .sofiaContact ep => ep.user :: ep.domain :: ep.profile.toList
  | .groupCall ep => [ep.group, ep.domain]
  | .error _ => []
  | .portAudio ep | .pulseAudio ep | .alsa ep => ep.destination.toList

/-- What every field holds a module text holds, where joining keeps it. -/
theorem moduleText_joined {P : Text → Prop}
    (hjoin : ∀ sep ∈ ['/', '@', ':'], ∀ x y : Text, P x → P y → P (x ++ sep :: y))
    (hwords : ∀ word ∈ ["", "sofia", "gateway", "loopback", "default", "user", "portaudio",
      "pulseaudio", "alsa"], P word.toList)
    (herror : ∀ ep : ErrorEndpoint, P ep.toText) {ep : Endpoint}
    (hexpression : ep.isExpression = false) (h : ∀ field ∈ ep.fields, P field) :
    P ep.moduleText := by
  have hslash : ∀ x y : Text, P x → P y → P (x ++ '/' :: y) := hjoin '/' (by decide)
  have hdevice : ∀ (ep : AudioEndpoint) (kind : String), P kind.toList →
      (∀ field ∈ ep.destination.toList, P field) → P (ep.moduleText kind) := by
    rintro ⟨destination, vars⟩ kind hkind hfield
    cases destination with
    | none => exact hkind
    | some destination => exact hslash _ _ hkind (hfield destination (by simp))
  cases ep with
  | sofia ep =>
      have hbehind := hslash ep.profile ep.destination (h _ (by simp [fields]))
        (h _ (by simp [fields]))
      have hwhole := hslash _ _ (hwords "sofia" (by decide)) hbehind
      exact hwhole
  | sofiaGateway ep =>
      obtain ⟨gateway, destination, profile, vars⟩ := ep
      have hgateway : P gateway := h gateway (by simp [fields])
      have hkey : P (SofiaGateway.key ⟨gateway, destination, profile, vars⟩) := by
        cases profile with
        | none => exact hgateway
        | some profile =>
            have hcolons := hjoin ':' (by decide)
            have hbehind := hcolons [] gateway (hwords "" (by decide)) hgateway
            have hwhole := hcolons profile _ (h profile (by simp [fields])) hbehind
            have htext : SofiaGateway.key ⟨gateway, destination, some profile, vars⟩ =
                profile ++ ':' :: ([] ++ ':' :: gateway) :=
              (List.append_assoc profile [':', ':'] gateway).trans rfl
            exact htext ▸ hwhole
      have hbehind := hslash _ _ hkey (h destination (by simp [fields]))
      have hwhole := hslash _ _ (hwords "sofia" (by decide))
        (hslash _ _ (hwords "gateway" (by decide)) hbehind)
      exact hwhole
  | loopback ep =>
      obtain ⟨extension, context, dialplan, vars⟩ := ep
      have hextension : P extension := h extension (by simp [fields])
      have hopens := fun x => hslash "loopback".toList x (hwords "loopback" (by decide))
      cases dialplan with
      | none =>
          cases context with
          | none => exact hopens _ hextension
          | some context =>
              exact hopens _ (hslash _ _ hextension (h context (by simp [fields])))
      | some dialplan =>
          have hdialplan : P dialplan := h dialplan (by simp [fields])
          cases context with
          | none =>
              have hcontext : P defaultContext := hwords "default" (by decide)
              exact hopens _ (hslash _ _ hextension (hslash _ _ hcontext hdialplan))
          | some context =>
              have hcontext : P context := h context (by simp [fields])
              exact hopens _ (hslash _ _ hextension (hslash _ _ hcontext hdialplan))
  | user ep =>
      obtain ⟨name, domain, vars⟩ := ep
      have hname : P name := h name (by simp [fields])
      cases domain with
      | none => exact hslash _ _ (hwords "user" (by decide)) hname
      | some domain =>
          have hat := hjoin '@' (by decide) name domain hname (h domain (by simp [fields]))
          exact hslash _ _ (hwords "user" (by decide)) hat
  | error ep => exact herror ep
  | portAudio ep => exact hdevice ep "portaudio" (hwords _ (by decide)) h
  | pulseAudio ep => exact hdevice ep "pulseaudio" (hwords _ (by decide)) h
  | alsa ep => exact hdevice ep "alsa" (hwords _ (by decide)) h
  | sofiaContact ep | groupCall ep => cases hexpression

theorem nul_notMem_moduleText {ep : Endpoint} (h : ∀ field ∈ ep.fields, '\x00' ∉ field) :
    '\x00' ∉ ep.moduleText := by
  have hletters : ∀ order : GroupCallOrder, '\x00' ∉ order.asStr := by
    intro order
    cases order <;> decide
  have hjoin : ∀ sep ∈ ['/', '@', ':', '+'], ∀ x y : Text, '\x00' ∉ x → '\x00' ∉ y →
      '\x00' ∉ x ++ sep :: y := by
    intro sep hsep x y hx hy
    have hne : ∀ sep ∈ ['/', '@', ':', '+'], '\x00' ≠ sep := by decide
    simp [hx, hy, hne sep hsep]
  have hwraps : ∀ opening argument : Text, '\x00' ∉ opening → '\x00' ∉ argument →
      '\x00' ∉ opening ++ argument ++ [')', '}'] := by
    intro opening argument hopening hargument
    simp [hopening, hargument]
  cases hexpression : ep.isExpression with
  | false =>
      refine moduleText_joined (P := fun text => '\x00' ∉ text) ?_ (by decide) (fun ep => ?_)
        hexpression h
      · exact fun sep hsep => hjoin sep (List.mem_append_left ['+'] hsep)
      · have hopening : '\x00' ∉ "error/".toList := by decide
        intro hmem
        exact (List.mem_append.mp hmem).elim hopening (ep.cause.notMem_asStr (by decide))
  | true =>
      cases ep with
      | sofiaContact ep =>
          obtain ⟨user, domain, profile, vars⟩ := ep
          have huser : '\x00' ∉ user := h user (by simp [fields])
          have hdomain : '\x00' ∉ domain := h domain (by simp [fields])
          have hcall : '\x00' ∉ user ++ '@' :: domain := hjoin '@' (by decide) _ _ huser hdomain
          cases profile with
          | none =>
              exact hwraps _ _ (by decide) hcall
          | some profile =>
              have hprofile : '\x00' ∉ profile := h profile (by simp [fields])
              exact hwraps _ _ (by decide) (hjoin '/' (by decide) _ _ hprofile hcall)
      | groupCall ep =>
          obtain ⟨group, domain, order, vars⟩ := ep
          have hgroup : '\x00' ∉ group := h group (by simp [fields])
          have hdomain : '\x00' ∉ domain := h domain (by simp [fields])
          cases order with
          | none => exact hwraps _ _ (by decide) (hjoin '@' (by decide) _ _ hgroup hdomain)
          | some order =>
              have hbehind := hjoin '+' (by decide) _ _ hdomain (hletters order)
              exact hwraps _ _ (by decide) (hjoin '@' (by decide) _ _ hgroup hbehind)
      | _ => cases hexpression

/-- A module text the switch is not left to expand names a variable only where a field does. -/
theorem namesAVariable_moduleText {ep : Endpoint} (hexpression : ep.isExpression = false)
    (h : ∀ field ∈ ep.fields, namesAVariable field = false) :
    namesAVariable ep.moduleText = false := by
  refine moduleText_joined (P := fun text => namesAVariable text = false) ?_ (by decide)
    (fun ep => namesAVariable_plain ep.dollar_notMem) hexpression h
  intro sep hsep x y hx hy
  have hplain : ∀ sep ∈ ['/', '@', ':'], sep ∉ ['$', '{', '\\'] := by decide
  rw [namesAVariable_joined (hplain sep hsep), hx, hy]
  rfl

/-- An endpoint a load accepts, with some variables or none, whose fields hold no terminator and
name no variable. -/
structure Configured (ep : Endpoint) : Prop where
  accepted : ep.checkDeliverable = .ok ()
  free : ∀ field ∈ ep.fields, '\x00' ∉ field
  named : ∀ field ∈ ep.fields, namesAVariable field = false
  vars : ∀ vars ∈ ep.vars, vars.Accepted ∧ vars.pairs ≠ []
  unexpanded : ∀ vars ∈ ep.vars, ∀ pair ∈ vars.pairs,
    namesAVariable pair.1 = false ∧ namesAVariable pair.2 = false

/-- Such an endpoint whose variables split on commas. -/
structure Built (ep : Endpoint) : Prop extends Configured ep where
  commas : ∀ vars ∈ ep.vars, vars.separator = none

variable {ep : Endpoint}

theorem Built.deliverable (h : ep.Built) (target : DialStringTarget) : ep.Deliverable target where
  accepted := h.accepted
  free := nul_notMem_moduleText h.free
  vars vars hvars := (h.vars vars hvars).1
  commas := h.commas
  unexpanded vars hvars pair hpair :=
    ⟨fun _ => (h.unexpanded vars hvars pair hpair).1,
      fun _ => (h.unexpanded vars hvars pair hpair).2⟩
  module hexpression _ := namesAVariable_moduleText hexpression h.named

/-- Every block of a configured endpoint is written. -/
theorem Configured.block (h : ep.Configured) : ep.block = ep.vars := by
  cases hvars : ep.vars with
  | none => rw [Endpoint.block, hvars]; rfl
  | some vars => exact block_eq_some.mpr ⟨hvars, (h.vars vars hvars).2⟩

/-- The canonical form has the same variables. -/
theorem vars_canonical (ep : Endpoint) :
    ep.canonical.vars = ep.vars ∧ ep.canonical.setVariables ep.vars = ep.canonical := by
  cases ep with
  | loopback ep =>
      obtain ⟨extension, context, dialplan, vars⟩ := ep
      cases context <;> cases dialplan <;> exact ⟨rfl, rfl⟩
  | _ => exact ⟨rfl, rfl⟩

/-- The blocks of a built endpoint install its variables. -/
theorem Built.install (h : ep.Built) :
    install (ep.vars.map fun vars => blockOf vars.scope vars.pairs).toList =
      ep.vars.elim [] Variables.pairs := by
  cases hvars : ep.vars with
  | none => rfl
  | some vars =>
      have hinstall := (h.vars vars hvars).1.install
      rw [h.commas vars hvars] at hinstall
      exact hinstall

/-- **An endpoint arrives as built** at every target that needs not expand it, as one leg with its
variables and its module text, and is parsed back in its canonical form; an expression at any other
target is refused. -/
theorem endpoint_arrives (h : ep.Built) (target : DialStringTarget) :
    (ep.checkExpanded target.carrier = .ok () →
      ReadsLeg (SwitchPasses.read (ep.displayFor target) target)
        (ep.vars.map fun vars => blockOf vars.scope vars.pairs).toList ep.moduleText ∧
      install (ep.vars.map fun vars => blockOf vars.scope vars.pairs).toList =
        ep.vars.elim [] Variables.pairs ∧
      parseFor (ep.displayFor target) target = .ok ep.canonical ∧
      ep.canonical.vars = ep.vars) ∧
    (ep.checkExpanded target.carrier ≠ .ok () →
      parseFor (ep.displayFor target) target = .error (.unexpandedExpression ep.kind)) := by
  have hdials := dials_displayFor (h.deliverable target)
  obtain ⟨huncrossed, hunseparated⟩ := (h.deliverable target).separators
  have hparse := parseFor_displayFor (h.deliverable target).toDialable huncrossed
  obtain ⟨hvars, hsame⟩ := ep.vars_canonical
  rw [blocks, h.block] at hdials
  rw [hunseparated, h.block, hsame] at hparse
  constructor
  · intro hexpanded
    rw [hexpanded] at hparse
    exact ⟨hdials, h.install, hparse, hvars⟩
  · intro hrefused
    have herror : ep.checkExpanded target.carrier = .error (.unexpandedExpression ep.kind) := by
      cases hcarrier : target.carrier with
      | dialplan => exact absurd (hcarrier ▸ rfl) hrefused
      | eslApi =>
          rw [hcarrier, checkExpanded] at hrefused
          rw [checkExpanded]
          split_ifs at hrefused ⊢
          · rfl
          · exact absurd rfl hrefused
    rw [herror] at hparse
    exact hparse

theorem cutUser_built : cutUser.Built := by
  refine ⟨⟨by decide +kernel, by decide, by decide +kernel, ?_, ?_⟩, ?_⟩
  · rintro vars hvars
    obtain rfl := Option.some.inj hvars
    exact ⟨(cutVariable_loaded .channel).toAccepted, List.cons_ne_nil _ _⟩
  · rintro vars hvars pair hpair
    obtain rfl := Option.some.inj hvars
    obtain rfl := List.mem_singleton.mp hpair
    exact ⟨by decide +kernel, by decide +kernel⟩
  · rintro vars hvars
    obtain rfl := Option.some.inj hvars
    rfl

/-- The user behind channel variables, through the blank split. -/
theorem endpoint_arrives_cutUser :
    ReadsLeg (SwitchPasses.read (cutUser.displayFor (.new .eslApi .pairSplitCleans))
        (.new .eslApi .pairSplitCleans))
        [blockOf .channel [("k".toList, "a, b| ".toList)]] "user/1001@pbx".toList ∧
      install [blockOf .channel [("k".toList, "a, b| ".toList)]] =
        [("k".toList, "a, b| ".toList)] ∧
      parseFor (cutUser.displayFor (.new .eslApi .pairSplitCleans))
        (.new .eslApi .pairSplitCleans) = .ok cutUser ∧ cutUser.canonical.vars = cutUser.vars :=
  (endpoint_arrives cutUser_built (.new .eslApi .pairSplitCleans)).1 rfl

/-! ### What a parse accepts -/

theorem setVariables_keeps (ep : Endpoint) (vars : Option Variables) :
    (ep.setVariables vars).checkDeliverable = ep.checkDeliverable ∧
    (ep.setVariables vars).moduleText = ep.moduleText ∧
    ∀ carrier, (ep.setVariables vars).checkExpanded carrier = ep.checkExpanded carrier := by
  cases ep <;> exact ⟨rfl, rfl, fun carrier => by cases carrier <;> rfl⟩

/-- A canonical endpoint stays one behind a block. -/
theorem canonical_setVariables {ep : Endpoint} (h : ep.canonical = ep)
    (vars : Option Variables) : (ep.setVariables vars).canonical = ep.setVariables vars := by
  cases ep with
  | loopback ep =>
      have hfilled := canonical_loopback.mp h
      exact canonical_loopback.mpr hfilled
  | _ => rfl

theorem vars_setVariables {ep : Endpoint} {vars : Option Variables} {given : Variables}
    (h : (ep.setVariables vars).vars = some given) : vars = some given := by
  cases ep with
  | error ep => cases h
  | _ => exact h

/-- What a parse makes of a dial string is an endpoint a load accepts. -/
theorem loads_of_parseFor {text : Text} {target : DialStringTarget} {ep : Endpoint}
    (h : parseFor text target = .ok ep) :
    ep.checkDeliverable = .ok () ∧ ep.checkExpanded target.carrier = .ok () ∧
      ep.canonical = ep ∧
      ∀ vars ∈ ep.vars,
        Variables.deserialize vars.scope vars.inner vars.separator = .ok vars ∧
          vars.separator = none ∧ vars.pairs ≠ [] := by
  unfold parseFor at h
  obtain ⟨⟨vars, bare⟩, hleg, h⟩ := bind_ok_iff.mp h
  obtain ⟨⟨⟩, hexpanded, h⟩ := bind_ok_iff.mp h
  unfold parseLeg at hleg
  obtain ⟨⟨argument, later⟩, -, hleg⟩ := bind_ok_iff.mp hleg
  obtain ⟨⟨block, endpoint⟩, -, hleg⟩ := bind_ok_iff.mp hleg
  obtain ⟨installed, hinstalled, hleg⟩ := bind_ok_iff.mp hleg
  obtain ⟨parsed, hbare, hleg⟩ := bind_ok_iff.mp hleg
  obtain ⟨rfl, rfl⟩ := Prod.mk.inj (Except.ok.inj hleg)
  obtain ⟨hdeliverable, hnone, hcanonical, -⟩ := parsed_of_parseBare hbare
  obtain ⟨hcheck, -, hexpand⟩ := setVariables_keeps parsed installed
  cases installed with
  | none =>
      obtain rfl := Except.ok.inj h
      refine ⟨hdeliverable, hexpanded, hcanonical, fun vars hvars => ?_⟩
      rw [hnone] at hvars
      cases hvars
  | some vars =>
      rw [Option.isSome_some, if_pos rfl] at h
      dsimp only at h
      split at h
      · cases h
      · obtain rfl := Except.ok.inj h
        refine ⟨hcheck.trans hdeliverable, (hexpand _).trans hexpanded,
          canonical_setVariables hcanonical _, fun given hgiven => ?_⟩
        obtain rfl := Option.some.inj (vars_setVariables hgiven)
        exact installedVariables_loads hinstalled

end Endpoint

/-- What a parse makes of a block is one a load accepts. -/
theorem Variables.loads_of_parseFor {text : Text} {target : DialStringTarget} {vars : Variables}
    (h : parseFor text target = .ok vars) :
    deserialize vars.scope vars.inner vars.separator = .ok vars ∧ vars.separator = none := by
  unfold parseFor at h
  obtain ⟨⟨argument, later⟩, -, h⟩ := bind_ok_iff.mp h
  dsimp only at h
  split at h
  · cases h
  · split at h
    · cases h
    · obtain ⟨⟨found, endpoint⟩, -, h⟩ := bind_ok_iff.mp h
      cases found with
      | none => cases h
      | some found =>
          dsimp only at h
          split at h
          · exact fromBlock_loads h
          · cases h

/-- **What a parse accepts a load accepts**, of any text and at any target: the endpoint in its
canonical form, which the target needs not expand, and the variables of a block. -/
theorem parsed_loads (text : Text) (target : DialStringTarget) :
    (∀ ep : Endpoint, Endpoint.parseFor text target = .ok ep →
      ep.checkDeliverable = .ok () ∧ ep.checkExpanded target.carrier = .ok () ∧
        ep.canonical = ep ∧
        ∀ vars ∈ ep.vars,
          Variables.deserialize vars.scope vars.inner vars.separator = .ok vars ∧
            vars.separator = none ∧ vars.pairs ≠ []) ∧
    ∀ vars : Variables, Variables.parseFor text target = .ok vars →
      Variables.deserialize vars.scope vars.inner vars.separator = .ok vars ∧
        vars.separator = none :=
  ⟨fun _ h => Endpoint.loads_of_parseFor h, fun _ h => Variables.loads_of_parseFor h⟩

/-- A user behind variables that was parsed can be loaded. -/
theorem parsed_loads_user :
    Endpoint.checkDeliverable (.user ⟨"1001".toList, none,
      some ⟨.default, IndexMap.empty.insert "k".toList "v".toList, none⟩⟩) = .ok () :=
  ((parsed_loads "\x7bk=v\x7duser/1001".toList (.new .eslApi .pairSplitCleans)).1 _
    (by decide +kernel)).1

end EslTokio
