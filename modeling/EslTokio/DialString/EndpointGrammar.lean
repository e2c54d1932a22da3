import EslTokio.DialString.Endpoint
import EslTokio.Library.Results

/-!
# The grammar of module texts

Ten endpoint grammars share one textual space. Here each parser is shown to be the exact inverse of
the text its endpoint renders, on the endpoints a configuration load accepts, and so is the dispatch
over them.

* `SofiaEndpoint.parseBare_iff` … `AudioEndpoint.parseBare_iff` — the parsers, one kind at a time.
* `Endpoint.Spells`, `Endpoint.canonical` — the texts of an endpoint, and what its text is parsed
  as.
* **`Endpoint.parseBare_exact`** — what the dispatch accepts, and that it accepts every endpoint's
  text.
-/

namespace EslTokio

open Library SwitchPasses

/-! ### Splits -/

theorem splitFirst_eq_some {c : Char} {text before after : Text} :
    Text.splitFirst c text = some (before, after) ↔ c ∉ before ∧ text = before ++ c :: after := by
  constructor
  · exact Text.splitFirst_some
  · rintro ⟨hbefore, rfl⟩
    exact Text.splitFirst_append hbefore after

theorem splitFirst_eq_none {c : Char} {text : Text} : Text.splitFirst c text = none ↔ c ∉ text := by
  induction text with
  | nil => simp [Text.splitFirst]
  | cons head tail ih =>
      rw [Text.splitFirst]
      split_ifs with hhead
      · simp [hhead]
      · rw [Option.map_eq_none_iff, ih, List.mem_cons, not_or]
        exact ⟨fun h => ⟨Ne.symm hhead, h⟩, And.right⟩

/-! ### Checks -/

theorem carries_eq_false {text : Text} {sep : String} :
    carries text sep = false ↔ ¬ sep.toList <:+: text := by
  rw [← Search.isSome_find_iff, Bool.not_eq_true]
  rfl

/-- A separator of one char is carried where that char is. -/
theorem carries_char {text : Text} {c : Char} {sep : String} (hsep : sep.toList = [c]) :
    carries text sep = false ↔ c ∉ text := by
  rw [carries_eq_false, hsep, List.singleton_infix_iff]

theorem find_carries {text : Text} {separators : List String} :
    separators.find? (carries text) = none ↔ ∀ sep ∈ separators, carries text sep = false := by
  simp [List.find?_eq_none]

theorem checkField_ok {endpoint field : String} {text : Text} {separators : List String} :
    checkField endpoint field text separators = .ok () ↔
      splitsIntoThreads text = false ∧ ∀ sep ∈ separators, carries text sep = false := by
  rw [← find_carries, checkField]
  cases splitsIntoThreads text with
  | true => simp
  | false => cases separators.find? (carries text) <;> simp

theorem checkExpressionField_ok {endpoint field : String} {text : Text} {separators : List String} :
    checkExpressionField endpoint field text separators = .ok () ↔
      (splitsIntoThreads text = false ∧ ∀ sep ∈ separators, carries text sep = false) ∧
        readBeforeTheFunction text = false := by
  rw [← find_carries, checkExpressionField]
  cases splitsIntoThreads text with
  | true => simp
  | false =>
      cases separators.find? (carries text) with
      | some sep => simp
      | none => cases readBeforeTheFunction text <;> simp

theorem afterPrefix_ok {text rest : Text} {opening kind : String} :
    afterPrefix text opening kind = .ok rest ↔
      text = opening.toList ++ rest ∧
        (opening.toList.getLast? = some '/' ∨ rest = [] ∨ rest.head? = some '/') := by
  rw [afterPrefix]
  cases hopens : opening.toList.isPrefixOf? text with
  | none =>
      refine iff_of_false (by simp) fun h => ?_
      have hsome := List.isPrefixOf?_eq_some_iff_append_eq.mpr h.1.symm
      rw [hopens] at hsome
      cases hsome
  | some other =>
      obtain rfl := List.isPrefixOf?_eq_some_iff_append_eq.mp hopens
      dsimp only
      split_ifs with hends
      · simp only [Except.ok.injEq, List.append_cancel_left_eq]
        constructor
        · rintro rfl
          exact ⟨rfl, hends⟩
        · exact fun h => h.1
      · refine iff_of_false (by simp) fun h => hends ?_
        rw [List.append_cancel_left h.1]
        exact h.2

/-- Behind a name that ends a path segment anything is the module's text. -/
theorem afterPrefix_slash {α : Type} {text : Text} {opening kind : String}
    {f : Text → Except OriginateError α} {a : α} (hslash : opening.toList.getLast? = some '/') :
    (afterPrefix text opening kind >>= f) = .ok a ↔ ∃ rest, text = opening.toList ++ rest ∧
    f rest = .ok a := by
  simp only [bind_ok_iff, afterPrefix_ok, and_iff_left (Or.inl hslash)]

theorem expressionBody_ok {text inner : Text} {opening function : String} :
    expressionBody text opening function = .ok inner ↔
      text = opening.toList ++ inner ++ [')', '}'] := by
  have hparts : ((opening.toList.isPrefixOf? text).bind fun rest => [')', '}'].isSuffixOf? rest) =
      some inner ↔ text = opening.toList ++ inner ++ [')', '}'] := by
    simp only [Option.bind_eq_some_iff, List.isPrefixOf?_eq_some_iff_append_eq,
      List.isSuffixOf?_eq_some_iff_append_eq]
    constructor
    · rintro ⟨rest, rfl, rfl⟩
      exact (List.append_assoc _ _ _).symm
    · rintro rfl
      exact ⟨inner ++ [')', '}'], (List.append_assoc _ _ _).symm, rfl⟩
  rw [expressionBody, ← hparts]
  cases (opening.toList.isPrefixOf? text).bind fun rest => [')', '}'].isSuffixOf? rest <;> simp

/-- A field a module splits on a char does not carry it. -/
theorem notMem_of_checkField {endpoint field : String} {text : Text} {separators : List String}
    {sep : String}
    {c : Char} (h : checkField endpoint field text separators = .ok ()) (hmem : sep ∈ separators)
    (hsep : sep.toList = [c]) : c ∉ text :=
  (carries_char hsep).mp ((checkField_ok.mp h).2 sep hmem)

theorem notMem_of_checkExpressionField {endpoint field : String} {text : Text}
    {separators : List String}
    {sep : String} {c : Char} (h : checkExpressionField endpoint field text separators = .ok ())
    (hmem : sep ∈ separators) (hsep : sep.toList = [c]) : c ∉ text :=
  (carries_char hsep).mp ((checkExpressionField_ok.mp h).1.2 sep hmem)

/-! ### SIP profiles and gateways -/

theorem SofiaEndpoint.checkDeliverable_ok {ep : SofiaEndpoint} :
    ep.checkDeliverable = .ok () ↔
      checkField "sofia" "profile" ep.profile ["/", "^", "@"] = .ok () ∧
        Text.eqIgnoreCase ep.profile "gateway".toList = false ∧
        checkField "sofia" "destination" ep.destination [] = .ok () := by
  rw [checkDeliverable, then_ok_iff]
  refine and_congr_right fun _ => ?_
  cases Text.eqIgnoreCase ep.profile "gateway".toList <;> simp

theorem SofiaEndpoint.parseBare_iff {text : Text} {ep : SofiaEndpoint} :
    parseBare text = .ok ep ↔ ep.checkDeliverable = .ok () ∧ ep.vars = none ∧
      text = ep.moduleText := by
  rw [parseBare, afterPrefix_slash (by simp)]
  constructor
  · rintro ⟨rest, rfl, h⟩
    split at h
    · cases h
    · rename_i profile destination hsplit
      obtain ⟨-, rfl⟩ := splitFirst_eq_some.mp hsplit
      obtain ⟨hcheck, rfl⟩ := checked_iff.mp h
      exact ⟨hcheck, rfl, (List.append_assoc _ _ _).symm⟩
  · rintro ⟨hcheck, hvars, rfl⟩
    have hprofile : '/' ∉ ep.profile :=
      notMem_of_checkField (checkDeliverable_ok.mp hcheck).1 (by simp : "/" ∈ _) (by simp)
    refine ⟨ep.profile ++ '/' :: ep.destination, List.append_assoc _ _ _, ?_⟩
    rw [Text.splitFirst_append hprofile]
    refine checked_iff.mpr ?_
    rw [← hvars]
    exact ⟨hcheck, rfl⟩

/-- A `::` is first read where the profile ends. -/
theorem splitOnce_key {profile gateway : Text} (hclear : carries profile "::" = false)
    (hlast : profile.getLast? ≠ some ':') :
    Search.splitOnce "::".toList (profile ++ "::".toList ++ gateway) = some (profile, gateway) := by
  refine Search.splitOnce_append gateway fun offset hoffset hocc => ?_
  have htwo : "::".toList = [':', ':'] := by simp
  rw [htwo, List.append_assoc, List.drop_append_of_le_length hoffset.le] at hocc
  obtain ⟨c, rest, hdrop⟩ := List.exists_cons_of_ne_nil
    (List.ne_nil_of_length_pos (by rw [List.length_drop]; omega) : profile.drop offset ≠ [])
  rw [hdrop, List.cons_append, List.cons_prefix_cons] at hocc
  obtain ⟨rfl, hocc⟩ := hocc
  cases rest with
  | nil =>
      -- The profile ends in the colon.
      apply hlast
      rw [← List.take_append_drop offset profile, hdrop, List.getLast?_concat]
  | cons d rest =>
      rw [List.cons_append, List.cons_prefix_cons] at hocc
      obtain ⟨rfl, -⟩ := hocc
      refine carries_eq_false.mp hclear ?_
      rw [htwo, ← List.take_append_drop offset profile, hdrop]
      exact ⟨profile.take offset, rest, by simp⟩

theorem SofiaGateway.checkProfile_ok {ep : SofiaGateway} {profile : Text} :
    ep.checkProfile profile = .ok () ↔
      checkField "sofia gateway" "profile" profile ["/", "^", "@", "::"] = .ok () ∧
        profile.getLast? ≠ some ':' ∧
        splitsIntoThreads (profile ++ "::".toList ++ ep.gateway) = false := by
  rw [checkProfile, then_ok_iff]
  refine and_congr_right fun _ => ?_
  by_cases hlast : profile.getLast? = some ':'
  · simp [hlast]
  · cases hthreads : splitsIntoThreads (profile ++ "::".toList ++ ep.gateway) <;> simp [hlast]

/-- The separators of a gateway, which `::` is among unless a profile stands ahead. -/
def SofiaGateway.gatewaySplits (ep : SofiaGateway) : List String :=
  if ep.profile.isSome then ["/", "^", "@"] else ["/", "^", "@", "::"]

theorem SofiaGateway.checkDeliverable_ok {ep : SofiaGateway} :
    ep.checkDeliverable = .ok () ↔
      checkField "sofia gateway" "gateway" ep.gateway ep.gatewaySplits = .ok () ∧
        (∀ profile ∈ ep.profile, ep.checkProfile profile = .ok ()) ∧
        checkField "sofia gateway" "destination" ep.destination [] = .ok () := by
  rw [checkDeliverable, gatewaySplits]
  cases ep.profile with
  | none => simp [then_ok_iff]
  | some profile => simp [then_ok_iff]

theorem SofiaGateway.slash_notMem_key {ep : SofiaGateway} (h : ep.checkDeliverable = .ok ()) :
    '/' ∉ ep.key := by
  obtain ⟨hgateway, hprofile, -⟩ := checkDeliverable_ok.mp h
  have hsplits : "/" ∈ gatewaySplits ep := by
    rw [gatewaySplits]
    split_ifs <;> simp
  have hslash : '/' ∉ ep.gateway := notMem_of_checkField hgateway hsplits (by simp)
  rw [key]
  cases hsome : ep.profile with
  | none => exact hslash
  | some profile =>
      have hfield := (checkProfile_ok.mp (hprofile profile hsome)).1
      have hslash' : '/' ∉ profile := notMem_of_checkField hfield (by simp : "/" ∈ _) (by simp)
      simp [hslash, hslash']

/-- The key is read as the profile and the gateway it was put together from. -/
theorem SofiaGateway.splitOnce_key {ep : SofiaGateway} (h : ep.checkDeliverable = .ok ()) :
    Search.splitOnce "::".toList ep.key = ep.profile.map fun profile => (profile, ep.gateway) := by
  obtain ⟨hgateway, hprofile, -⟩ := checkDeliverable_ok.mp h
  rw [key]
  cases hsome : ep.profile with
  | none =>
      rw [gatewaySplits, hsome] at hgateway
      have hclear := (checkField_ok.mp hgateway).2 "::" (by simp)
      exact Search.splitOnce_eq_none.mpr (carries_eq_false.mp hclear)
  | some profile =>
      obtain ⟨hfield, hlast, -⟩ := checkProfile_ok.mp (hprofile profile hsome)
      exact EslTokio.splitOnce_key ((checkField_ok.mp hfield).2 "::" (by simp)) hlast

theorem SofiaGateway.moduleText_ofKey (key destination : Text) :
    (ofKey key destination).moduleText = "sofia/gateway/".toList ++ key ++ '/' :: destination := by
  rw [ofKey]
  cases hkey : Search.splitOnce "::".toList key with
  | none => rfl
  | some parts =>
      obtain ⟨profile, gateway⟩ := parts
      obtain ⟨rfl, -⟩ := Search.splitOnce_some hkey
      rfl

theorem SofiaGateway.vars_ofKey (key destination : Text) : (ofKey key destination).vars = none := by
  rw [ofKey]
  split <;> rfl

theorem SofiaGateway.ofKey_key {ep : SofiaGateway} (h : ep.checkDeliverable = .ok ())
    (hvars : ep.vars = none) :
    ofKey ep.key ep.destination = ep := by
  rw [ofKey, splitOnce_key h]
  obtain ⟨gateway, destination, profile, vars⟩ := ep
  obtain rfl : vars = none := hvars
  cases profile <;> rfl

theorem SofiaGateway.parseBare_iff {text : Text} {ep : SofiaGateway} :
    parseBare text = .ok ep ↔ ep.checkDeliverable = .ok () ∧ ep.vars = none ∧
      text = ep.moduleText := by
  rw [parseBare, afterPrefix_slash (by simp)]
  constructor
  · rintro ⟨rest, rfl, h⟩
    cases hsplit : Text.splitFirst '/' rest with
    | none =>
        rw [hsplit] at h
        cases h
    | some parts =>
        obtain ⟨gatewayPart, destination⟩ := parts
        rw [hsplit] at h
        obtain ⟨-, rfl⟩ := splitFirst_eq_some.mp hsplit
        obtain ⟨hcheck, rfl⟩ := checked_iff.mp h
        exact ⟨hcheck, vars_ofKey _ _, (moduleText_ofKey _ _).symm ▸ (List.append_assoc _ _ _).symm⟩
  · rintro ⟨hcheck, hvars, rfl⟩
    refine ⟨ep.key ++ '/' :: ep.destination, List.append_assoc _ _ _, ?_⟩
    rw [Text.splitFirst_append (slash_notMem_key hcheck)]
    refine checked_iff.mpr ?_
    rw [ofKey_key hcheck hvars]
    exact ⟨hcheck, rfl⟩

/-! ### Loopbacks and users -/

theorem checkSegment_ok {field : String} {separators : List String} {value : Option Text} :
    checkSegment field separators value = .ok () ↔
      ∀ segment ∈ value, checkField "loopback" field segment separators = .ok () ∧
        segment ≠ [] := by
  cases value with
  | none => simp [checkSegment]
  | some segment =>
      rw [checkSegment, then_ok_iff]
      by_cases hempty : segment = [] <;> simp [hempty]

theorem checkAbsent_ok {field : String} {value : Option Text} :
    checkAbsent field value = .ok () ↔ value = none := by
  cases value <;> simp [checkAbsent]

theorem utf8Size_of_toLower {c d : Char} (h : c.toLower = d) (hd : d.toNat < 128) :
    c.utf8Size = 1 := by
  rw [Char.utf8Size_eq_one_iff]
  by_contra hhigh
  have hlow : ¬ c.toNat < 128 := fun hlow => hhigh (Nat.le_of_lt_succ hlow)
  rw [Library.toLower_of_not_ascii (by omega)] at h
  exact hlow (h ▸ hd)

/-- An application opens with `app=`, in any case. -/
theorem isApplication_iff {extension : Text} :
    isApplication extension = true ↔
      ∃ opening rest, extension = opening ++ rest ∧
        Text.eqIgnoreCase opening "app=".toList = true := by
  rw [isApplication, Option.any_eq_true]
  constructor
  · rintro ⟨opening, htake, heq⟩
    have hdrop : Text.dropBytes 0 extension = some extension := Text.dropBytes_append [] extension
    rw [Text.get?, if_pos (Nat.zero_le 4), hdrop, Option.bind_some] at htake
    obtain ⟨rest, hrest⟩ := Text.takeBytes_some htake
    exact ⟨opening, rest, hrest, heq⟩
  · rintro ⟨opening, rest, rfl, heq⟩
    refine ⟨opening, ?_, heq⟩
    have hlower : opening.map Char.toLower = ['a', 'p', 'p', '='] := of_decide_eq_true heq
    obtain ⟨c, _, rfl, hc, h⟩ := List.map_eq_cons_iff.mp hlower
    obtain ⟨d, _, rfl, hd, h⟩ := List.map_eq_cons_iff.mp h
    obtain ⟨e, _, rfl, he, h⟩ := List.map_eq_cons_iff.mp h
    obtain ⟨f, _, rfl, hf, h⟩ := List.map_eq_cons_iff.mp h
    obtain rfl := List.map_eq_nil_iff.mp h
    have hsize : Text.byteLength [c, d, e, f] = 4 := by
      simp [utf8Size_of_toLower hc (by decide), utf8Size_of_toLower hd (by decide),
        utf8Size_of_toLower he (by decide), utf8Size_of_toLower hf (by decide)]
    have htake := Text.get?_append [] [c, d, e, f] rest
    rw [List.nil_append, Text.byteLength_nil, hsize] at htake
    exact htake

/-- What follows the first `/` does not make an application of an extension. -/
theorem isApplication_append_slash (extension rest : Text) :
    isApplication (extension ++ '/' :: rest) = isApplication extension := by
  rw [Bool.eq_iff_iff, isApplication_iff, isApplication_iff]
  constructor
  · rintro ⟨opening, behind, heq, hopening⟩
    have hslash : '/' ∉ opening := fun hmem => by
      have hlower := List.mem_map_of_mem (f := Char.toLower) hmem
      rw [of_decide_eq_true hopening] at hlower
      revert hlower
      decide
    obtain ⟨between, rfl, -⟩ | ⟨between, rfl, hbehind⟩ := List.append_eq_append_iff.mp heq
    · cases between with
      | nil => exact ⟨extension, [], (List.append_nil _).symm, by simpa using hopening⟩
      | cons c between => exact absurd (by simp_all) hslash
    · exact ⟨opening, between, rfl, hopening⟩
  · rintro ⟨opening, behind, rfl, hopening⟩
    exact ⟨opening, behind ++ '/' :: rest, List.append_assoc _ _ _, hopening⟩

theorem LoopbackEndpoint.moduleText_ofSegments (rest : Text) :
    (ofSegments rest).moduleText = "loopback/".toList ++ rest := by
  rw [ofSegments]
  cases hfirst : Text.splitFirst '/' rest with
  | none => rfl
  | some parts =>
      obtain ⟨extension, behind⟩ := parts
      obtain ⟨-, rfl⟩ := splitFirst_eq_some.mp hfirst
      dsimp only
      cases hsecond : Text.splitFirst '/' behind with
      | none => exact List.append_assoc _ _ _
      | some parts =>
          obtain ⟨context, dialplan⟩ := parts
          obtain ⟨-, rfl⟩ := splitFirst_eq_some.mp hsecond
          exact List.append_assoc _ _ _

theorem LoopbackEndpoint.ofSegments_fills (rest : Text) :
    (ofSegments rest).vars = none ∧
      ((ofSegments rest).dialplan.isSome = true → (ofSegments rest).context.isSome = true) := by
  rw [ofSegments]
  split
  · exact ⟨rfl, fun h => h⟩
  · split <;> exact ⟨rfl, fun _ => rfl⟩

theorem LoopbackEndpoint.checkDeliverable_application {ep : LoopbackEndpoint}
    (h : ep.checkDeliverable = .ok ()) (happ : isApplication ep.extension = true) :
    ep.context = none ∧ ep.dialplan = none := by
  simp only [checkDeliverable, if_pos happ, then_ok_iff, checkAbsent_ok] at h
  exact h.2.2

theorem LoopbackEndpoint.checkDeliverable_segments {ep : LoopbackEndpoint}
    (h : ep.checkDeliverable = .ok ()) (happ : isApplication ep.extension = false) :
    '/' ∉ ep.extension ∧ ∀ context ∈ ep.context, '/' ∉ context := by
  simp only [checkDeliverable, happ, Bool.false_eq_true, if_false, then_ok_iff,
    checkSegment_ok] at h
  obtain ⟨hextension, hcontext, -⟩ := h
  exact ⟨notMem_of_checkField hextension (by simp : "/" ∈ _) (by simp), fun context hmem =>
    notMem_of_checkField (hcontext context hmem).1 (by simp : "/" ∈ _) (by simp)⟩

/-- The text is read as its segments, or as one application. -/
theorem LoopbackEndpoint.read_moduleText {ep : LoopbackEndpoint}
    (hcheck : ep.checkDeliverable = .ok ())
    (hvars : ep.vars = none) (hfilled : ep.dialplan.isSome = true → ep.context.isSome = true) :
    ∃ rest, ep.moduleText = "loopback/".toList ++ rest ∧
      (if isApplication rest = true then ⟨rest, none, none, none⟩ else ofSegments rest) = ep := by
  obtain ⟨extension, context, dialplan, vars⟩ := ep
  obtain rfl : vars = none := hvars
  cases happ : isApplication extension with
  | true =>
      obtain ⟨hcontext, hdialplan⟩ := checkDeliverable_application hcheck happ
      obtain rfl : context = none := hcontext
      obtain rfl : dialplan = none := hdialplan
      exact ⟨extension, rfl, by rw [if_pos happ]⟩
  | false =>
      obtain ⟨hextension, hcontext⟩ := checkDeliverable_segments hcheck happ
      cases context with
      | none =>
          cases dialplan with
          | none =>
              refine ⟨extension, rfl, ?_⟩
              rw [if_neg (by simp [happ]), ofSegments, splitFirst_eq_none.mpr hextension]
          | some dialplan => cases hfilled rfl
      | some context =>
          have hclear : '/' ∉ context := hcontext context rfl
          cases dialplan with
          | none =>
              refine ⟨extension ++ '/' :: context, List.append_assoc _ _ _, ?_⟩
              rw [isApplication_append_slash, if_neg (by simp [happ]), ofSegments,
                Text.splitFirst_append hextension]
              dsimp only
              rw [splitFirst_eq_none.mpr hclear]
          | some dialplan =>
              refine ⟨extension ++ '/' :: (context ++ '/' :: dialplan), List.append_assoc _ _ _, ?_⟩
              rw [isApplication_append_slash, if_neg (by simp [happ]), ofSegments,
                Text.splitFirst_append hextension]
              dsimp only
              rw [Text.splitFirst_append hclear]

/-- A dialplan alone is not written: the default context stands ahead of it. -/
theorem LoopbackEndpoint.parseBare_iff {text : Text} {ep : LoopbackEndpoint} :
    parseBare text = .ok ep ↔
      ep.checkDeliverable = .ok () ∧ ep.vars = none ∧
        (ep.dialplan.isSome = true → ep.context.isSome = true) ∧ text = ep.moduleText := by
  rw [parseBare, afterPrefix_slash (by simp)]
  constructor
  · rintro ⟨rest, rfl, h⟩
    obtain ⟨hcheck, hep⟩ := checked_iff.mp h
    refine ⟨hep ▸ hcheck, ?_⟩
    split_ifs at hep with happ
    · obtain rfl := hep
      exact ⟨rfl, fun h => h, rfl⟩
    · obtain rfl := hep
      obtain ⟨hvars, hfilled⟩ := ofSegments_fills rest
      exact ⟨hvars, hfilled, (moduleText_ofSegments rest).symm⟩
  · rintro ⟨hcheck, hvars, hfilled, rfl⟩
    obtain ⟨rest, hrest, hep⟩ := read_moduleText hcheck hvars hfilled
    refine ⟨rest, hrest, checked_iff.mpr ?_⟩
    rw [hep]
    exact ⟨hcheck, rfl⟩

theorem UserEndpoint.parseBare_iff {text : Text} {ep : UserEndpoint} :
    parseBare text = .ok ep ↔ ep.checkDeliverable = .ok () ∧ ep.vars = none ∧
      text = ep.moduleText := by
  rw [parseBare, afterPrefix_slash (by simp)]
  constructor
  · rintro ⟨rest, rfl, h⟩
    obtain ⟨hcheck, hep⟩ := checked_iff.mp h
    refine ⟨hep ▸ hcheck, ?_⟩
    cases hsplit : Text.splitFirst '@' rest with
    | none =>
        rw [hsplit] at hep
        obtain rfl := hep
        exact ⟨rfl, rfl⟩
    | some parts =>
        rw [hsplit] at hep
        obtain rfl := hep
        obtain ⟨-, rfl⟩ := splitFirst_eq_some.mp hsplit
        exact ⟨rfl, (List.append_assoc _ _ _).symm⟩
  · rintro ⟨hcheck, hvars, rfl⟩
    obtain ⟨name, domain, vars⟩ := ep
    obtain rfl : vars = none := hvars
    have hname : '@' ∉ name := by
      have hfield := hcheck
      rw [checkDeliverable, then_ok_iff] at hfield
      exact notMem_of_checkField hfield.1 (by simp : "@" ∈ _) (by simp)
    cases domain with
    | none =>
        refine ⟨name, rfl, checked_iff.mpr ?_⟩
        rw [splitFirst_eq_none.mpr hname]
        exact ⟨hcheck, rfl⟩
    | some domain =>
        refine ⟨name ++ '@' :: domain, List.append_assoc _ _ _, checked_iff.mpr ?_⟩
        rw [Text.splitFirst_append hname]
        exact ⟨hcheck, rfl⟩

/-! ### Expressions -/

theorem expressionBody_bind {α : Type} {text : Text} {opening function : String}
    {f : Text → Except OriginateError α} {a : α} :
    (expressionBody text opening function >>= f) = .ok a ↔
      ∃ inner, text = opening.toList ++ inner ++ [')', '}'] ∧ f inner = .ok a := by
  simp only [bind_ok_iff, expressionBody_ok]

theorem SofiaContact.checkPart_clear {field : String} {value : Text}
    (h : checkPart field value = .ok ()) :
    '/' ∉ value := by
  rw [checkPart, then_ok_iff] at h
  exact notMem_of_checkExpressionField h.1 (by simp : "/" ∈ _) (by simp)

/-- The profile ends at the first `/` and the user at the first `@` behind it. -/
theorem SofiaContact.checkDeliverable_clear {ep : SofiaContact} (h : ep.checkDeliverable = .ok ()) :
    '@' ∉ ep.user ∧ '/' ∉ ep.domain ∧ (ep.profile = none → '/' ∉ ep.user) ∧
      ∀ profile ∈ ep.profile, '/' ∉ profile := by
  obtain ⟨user, domain, profile, vars⟩ := ep
  simp only [checkDeliverable, then_ok_iff] at h
  obtain ⟨huser, hdomain, hprofile⟩ := h
  refine ⟨?_, checkPart_clear hdomain, ?_, ?_⟩
  · cases profile with
    | none => exact notMem_of_checkExpressionField huser (by simp : "@" ∈ _) (by simp)
    | some profile => exact notMem_of_checkExpressionField huser (by simp : "@" ∈ _) (by simp)
  · rintro rfl
    exact notMem_of_checkExpressionField huser (by simp : "/" ∈ _) (by simp)
  · rintro profile rfl
    exact checkPart_clear hprofile

theorem SofiaContact.parseBare_iff {text : Text} {ep : SofiaContact} :
    parseBare text = .ok ep ↔ ep.checkDeliverable = .ok () ∧ ep.vars = none ∧
      text = ep.moduleText := by
  rw [parseBare, expressionBody_bind]
  constructor
  · rintro ⟨inner, rfl, h⟩
    cases hprofile : Text.splitFirst '/' inner with
    | none =>
        rw [hprofile] at h
        dsimp only at h
        cases hdomain : Text.splitFirst '@' inner with
        | none =>
            rw [hdomain] at h
            cases h
        | some parts =>
            obtain ⟨user, domain⟩ := parts
            rw [hdomain] at h
            obtain ⟨hcheck, rfl⟩ := checked_iff.mp h
            obtain ⟨-, rfl⟩ := splitFirst_eq_some.mp hdomain
            exact ⟨hcheck, rfl, rfl⟩
    | some parts =>
        obtain ⟨profile, rest⟩ := parts
        rw [hprofile] at h
        dsimp only at h
        obtain ⟨-, rfl⟩ := splitFirst_eq_some.mp hprofile
        cases hdomain : Text.splitFirst '@' rest with
        | none =>
            rw [hdomain] at h
            cases h
        | some parts =>
            obtain ⟨user, domain⟩ := parts
            rw [hdomain] at h
            obtain ⟨hcheck, rfl⟩ := checked_iff.mp h
            obtain ⟨-, rfl⟩ := splitFirst_eq_some.mp hdomain
            exact ⟨hcheck, rfl, rfl⟩
  · rintro ⟨hcheck, hvars, rfl⟩
    refine ⟨ep.argument, rfl, ?_⟩
    obtain ⟨huser, hdomain, halone, hprofile⟩ := checkDeliverable_clear hcheck
    obtain ⟨user, domain, profile, vars⟩ := ep
    obtain rfl : vars = none := hvars
    cases profile with
    | none =>
        have hargument : '/' ∉ user ++ '@' :: domain := by
          simpa using ⟨halone rfl, hdomain⟩
        rw [argument, splitFirst_eq_none.mpr hargument]
        dsimp only
        rw [Text.splitFirst_append huser]
        exact checked_iff.mpr ⟨hcheck, rfl⟩
    | some profile =>
        have hclear : '/' ∉ profile := hprofile profile rfl
        rw [argument]
        dsimp only
        rw [Text.splitFirst_append hclear]
        dsimp only
        rw [Text.splitFirst_append huser]
        exact checked_iff.mpr ⟨hcheck, rfl⟩

theorem GroupCallOrder.fromStr_iff {text : Text} {order : GroupCallOrder} :
    fromStr text = some order ↔ text = order.asStr := by
  constructor
  · intro h
    unfold fromStr at h
    split at h <;> first | (obtain rfl := Option.some.inj h; rfl) | cases h
  · rintro rfl
    cases order <;> rfl

/-- The order ends the argument, behind its first `+`. -/
theorem GroupCall.readOrder_iff {inner groupAtDomain : Text} {order : Option GroupCallOrder} :
    readOrder inner = .ok (groupAtDomain, order) ↔
      '+' ∉ groupAtDomain ∧ inner = groupAtDomain ++
        (order.map fun order => '+' :: order.asStr).getD [] := by
  rw [readOrder]
  constructor
  · intro h
    cases hsplit : Text.splitFirst '+' inner with
    | none =>
        rw [hsplit] at h
        obtain ⟨rfl, rfl⟩ := Prod.mk.inj (Except.ok.inj h)
        exact ⟨splitFirst_eq_none.mp hsplit, (List.append_nil _).symm⟩
    | some parts =>
        obtain ⟨before, text⟩ := parts
        rw [hsplit] at h
        obtain ⟨hclear, rfl⟩ := splitFirst_eq_some.mp hsplit
        dsimp only at h
        cases horder : GroupCallOrder.fromStr text with
        | none =>
            rw [horder] at h
            cases h
        | some order =>
            rw [horder] at h
            obtain ⟨rfl, rfl⟩ := Prod.mk.inj (Except.ok.inj h)
            rw [GroupCallOrder.fromStr_iff.mp horder]
            exact ⟨hclear, rfl⟩
  · rintro ⟨hclear, rfl⟩
    cases order with
    | none =>
        rw [Option.map_none, Option.getD_none, List.append_nil, splitFirst_eq_none.mpr hclear]
    | some order =>
        rw [Option.map_some, Option.getD_some, Text.splitFirst_append hclear]
        dsimp only
        rw [GroupCallOrder.fromStr_iff.mpr rfl]

theorem GroupCall.argument_eq (ep : GroupCall) :
    ep.argument = (ep.group ++ '@' :: ep.domain) ++ (ep.order.map fun order =>
      '+' :: order.asStr).getD [] := by
  rw [argument]
  cases ep.order <;> simp

theorem GroupCall.parseBare_iff {text : Text} {ep : GroupCall} :
    parseBare text = .ok ep ↔ ep.checkDeliverable = .ok () ∧ ep.vars = none ∧
      text = ep.moduleText := by
  rw [parseBare, expressionBody_bind]
  simp only [bind_ok_iff]
  constructor
  · rintro ⟨inner, rfl, ⟨groupAtDomain, order⟩, horder, h⟩
    obtain ⟨-, rfl⟩ := readOrder_iff.mp horder
    dsimp only at h
    cases hdomain : Text.splitFirst '@' groupAtDomain with
    | none =>
        rw [hdomain] at h
        cases h
    | some parts =>
        obtain ⟨group, domain⟩ := parts
        rw [hdomain] at h
        obtain ⟨hcheck, rfl⟩ := checked_iff.mp h
        obtain ⟨-, rfl⟩ := splitFirst_eq_some.mp hdomain
        exact ⟨hcheck, rfl,
          congrArg (fun argument => "$\x7bgroup_call(".toList ++ argument ++ [')', '}'])
          (argument_eq ⟨group, domain, order, none⟩).symm⟩
  · rintro ⟨hcheck, hvars, rfl⟩
    have hfields := hcheck
    rw [checkDeliverable, then_ok_iff] at hfields
    obtain ⟨hgroup, hdomain⟩ := hfields
    have hat : '@' ∉ ep.group := notMem_of_checkExpressionField hgroup (by simp : "@" ∈ _) (by simp)
    have hplus : '+' ∉ ep.group :=
      notMem_of_checkExpressionField hgroup (by simp : "+" ∈ _) (by simp)
    have hplus' : '+' ∉ ep.domain :=
      notMem_of_checkExpressionField hdomain (by simp : "+" ∈ _) (by simp)
    have hread : readOrder ep.argument = .ok (ep.group ++ '@' :: ep.domain, ep.order) :=
      readOrder_iff.mpr ⟨by simp [hplus, hplus'], argument_eq ep⟩
    refine ⟨ep.argument, rfl, _, hread, ?_⟩
    dsimp only
    rw [Text.splitFirst_append hat]
    refine checked_iff.mpr ?_
    rw [← hvars]
    exact ⟨hcheck, rfl⟩

/-! ### Hangup causes and audio devices -/

theorem ErrorEndpoint.fromStr_iff {text : Text} {ep : ErrorEndpoint} :
    fromStr text = .ok ep ↔ text = ep.toText := by
  unfold fromStr toText
  constructor
  · intro h
    cases hopens : "error/".toList.isPrefixOf? text with
    | none =>
        rw [hopens] at h
        cases h
    | some name =>
        rw [hopens] at h
        obtain rfl := List.isPrefixOf?_eq_some_iff_append_eq.mp hopens
        dsimp only at h
        cases hcause : HangupCause.fromStr name with
        | none =>
            rw [hcause] at h
            cases h
        | some cause =>
            rw [hcause] at h
            obtain rfl := Except.ok.inj h
            rw [HangupCause.asStr_of_fromStr hcause]
  · rintro rfl
    rw [List.isPrefixOf?_eq_some_iff_append_eq.mpr rfl]
    dsimp only
    rw [HangupCause.fromStr_asStr]

/-- The destination is what stands behind a `/`, if anything does. -/
theorem AudioEndpoint.destination_iff {rest : Text} {destination : Option Text}
    (hrest : rest = [] ∨ rest.head? = some '/') :
    (['/'].isPrefixOf? rest).filter (· ≠ []) = destination ↔
      destination ≠ some [] ∧
        (rest = (destination.map fun name => '/' :: name).getD [] ∨ destination = none ∧
          rest = ['/']) := by
  rcases hrest with rfl | hslash
  · cases destination <;> simp
  · obtain ⟨name, rfl⟩ := List.head?_eq_some_iff.mp hslash
    have hopens : ['/'].isPrefixOf? ('/' :: name) = some name :=
      List.isPrefixOf?_eq_some_iff_append_eq.mpr rfl
    rw [hopens]
    cases name with
    | nil =>
        have hnone : (some ([] : Text)).filter (· ≠ []) = none := rfl
        rw [hnone]
        cases destination <;> simp [eq_comm]
    | cons c name =>
        have hsome : (some (c :: name)).filter (· ≠ []) = some (c :: name) := rfl
        rw [hsome]
        cases destination with
        | none => simp
        | some other =>
            simp only [Option.some.injEq, ne_eq, Option.map_some, Option.getD_some, List.cons.injEq,
              true_and, reduceCtorEq, false_and, or_false]
            constructor
            · rintro rfl
              exact ⟨List.cons_ne_nil _ _, rfl⟩
            · exact fun h => h.2

theorem AudioEndpoint.checkDeliverable_named {ep : AudioEndpoint}
    (h : ep.checkDeliverable = .ok ()) :
    ep.destination ≠ some [] := by
  intro hempty
  rw [checkDeliverable, hempty] at h
  cases h

/-- A bare trailing `/` names no device, as no `/` does. -/
theorem AudioEndpoint.parseBare_iff {text : Text} {kind : String} {ep : AudioEndpoint}
    (hkind : kind.toList.getLast? ≠ some '/') :
    parseBare text kind = .ok ep ↔
      ep.checkDeliverable = .ok () ∧ ep.vars = none ∧
        (text = ep.moduleText kind ∨ ep.destination = none ∧ text = kind.toList ++ ['/']) := by
  have hmodule : ep.moduleText kind =
      kind.toList ++ (ep.destination.map fun name => '/' :: name).getD [] := by
    rw [moduleText]
    cases ep.destination <;> simp
  rw [parseBare, bind_ok_iff, hmodule]
  constructor
  · rintro ⟨rest, hrest, h⟩
    obtain ⟨rfl, hstarts⟩ := afterPrefix_ok.mp hrest
    obtain ⟨hcheck, rfl⟩ := checked_iff.mp h
    refine ⟨hcheck, rfl, ?_⟩
    obtain ⟨-, hrest⟩ := (destination_iff (hstarts.resolve_left hkind)).mp rfl
    exact hrest.imp (congrArg _) fun h => ⟨h.1, congrArg _ h.2⟩
  · rintro ⟨hcheck, hvars, htext⟩
    obtain ⟨rest, rfl, hrest⟩ : ∃ rest, text = kind.toList ++ rest ∧
        (rest = (ep.destination.map fun name => '/' :: name).getD [] ∨
          ep.destination = none ∧ rest = ['/']) := by
      rcases htext with rfl | ⟨hnone, rfl⟩
      · exact ⟨_, rfl, .inl rfl⟩
      · exact ⟨_, rfl, .inr ⟨hnone, rfl⟩⟩
    have hstarts : rest = [] ∨ rest.head? = some '/' := by
      rcases hrest with rfl | ⟨-, rfl⟩
      · cases ep.destination <;> simp
      · exact .inr rfl
    refine ⟨rest, afterPrefix_ok.mpr ⟨rfl, .inr hstarts⟩, ?_⟩
    refine checked_iff.mpr ?_
    rw [(destination_iff hstarts).mpr ⟨checkDeliverable_named hcheck, hrest⟩, ← hvars]
    exact ⟨hcheck, rfl⟩

/-! ### The dispatch -/

namespace Endpoint

/-- An endpoint as its own text is parsed: a dialplan alone stands behind the default context. -/
def canonical : Endpoint → Endpoint
  | .loopback ⟨extension, none, some dialplan, vars⟩ =>
      .loopback ⟨extension, some defaultContext, some dialplan, vars⟩
  | ep => ep

/-- The texts of an endpoint: its module text, and a trailing `/` where a device has no destination.
-/
def Spells : Endpoint → Text → Prop
  | .portAudio ep, text =>
      text = ep.moduleText "portaudio" ∨ ep.destination = none ∧ text = "portaudio".toList ++ ['/']
  | .pulseAudio ep, text =>
      text = ep.moduleText "pulseaudio" ∨ ep.destination = none ∧
        text = "pulseaudio".toList ++ ['/']
  | .alsa ep, text => text = ep.moduleText "alsa" ∨ ep.destination = none ∧
    text = "alsa".toList ++ ['/']
  | ep, text => text = ep.moduleText

/-- An endpoint a parser can yield. -/
structure Parsed (ep : Endpoint) (text : Text) : Prop where
  deliverable : ep.checkDeliverable = .ok ()
  vars : ep.vars = none
  canonical : ep.canonical = ep
  spells : ep.Spells text

/-- No name opens another, but for `sofia/` and the gateway's. -/
theorem openings_apart : ∀ later : Fin 10, ∀ earlier < later,
    (prefixParsers.get later).1.toList <+: (prefixParsers.get earlier).1.toList ∨
      (prefixParsers.get earlier).1.toList <+: (prefixParsers.get later).1.toList →
    earlier = 4 ∧ later = 5 := by
  decide

/-- A text is parsed by the entry whose name it opens with. -/
theorem parseBare_of_opening {text rest : Text} (entry : Fin 10)
    (hopens : text = (prefixParsers.get entry).1.toList ++ rest)
    (hgateway : entry = 5 → ¬ "sofia/gateway/".toList <+: text) :
    parseBare text = (prefixParsers.get entry).2 text := by
  have hfind : (prefixParsers.find? fun entry => entry.1.toList.isPrefixOf text) =
      some (prefixParsers.get entry) := by
    rw [List.find?_eq_some_iff_getElem]
    have hentry : (prefixParsers.get entry).1.toList <+: text := hopens ▸ List.prefix_append _ _
    refine ⟨List.isPrefixOf_iff_prefix.mpr hentry, entry, entry.isLt, rfl, fun earlier hlt => ?_⟩
    rw [Bool.not_eq_true', Bool.eq_false_iff, ne_eq, List.isPrefixOf_iff_prefix]
    intro hearlier
    have hboth := List.prefix_or_prefix_of_prefix hentry hearlier
    obtain ⟨hfour, hfive⟩ := openings_apart entry ⟨earlier, by omega⟩ hlt hboth
    obtain rfl : earlier = 4 := congrArg Fin.val hfour
    exact hgateway hfive hearlier
  rw [parseBare, hfind]

theorem map_ok_iff {ε α β : Type} {x : Except ε α} {f : α → β} {b : β} :
    f <$> x = .ok b ↔ ∃ a, x = .ok a ∧ f a = b := by
  cases x with
  | error e => exact iff_of_false (by rintro ⟨⟩) (by rintro ⟨a, ⟨⟩, -⟩)
  | ok a =>
      constructor
      · intro h
        exact ⟨a, rfl, Except.ok.inj h⟩
      · rintro ⟨a, h, rfl⟩
        cases h
        rfl

theorem canonical_loopback {ep : LoopbackEndpoint} :
    canonical (.loopback ep) = .loopback ep ↔
      (ep.dialplan.isSome = true → ep.context.isSome = true) := by
  obtain ⟨extension, context, dialplan, vars⟩ := ep
  cases context <;> cases dialplan <;> simp [canonical]

/-- Each parser yields an endpoint of its text. -/
theorem parsed_of_entry {entry : String × (Text → Except OriginateError Endpoint)}
    (hentry : entry ∈ prefixParsers) {text : Text} {ep : Endpoint} (h : entry.2 text = .ok ep) :
    Parsed ep text := by
  simp only [prefixParsers, List.mem_cons, List.not_mem_nil, or_false] at hentry
  rcases hentry with rfl | rfl | rfl | rfl | rfl | rfl | rfl | rfl | rfl | rfl <;>
    obtain ⟨ep, hparse, rfl⟩ := map_ok_iff.mp h
  · obtain ⟨hcheck, hvars, htext⟩ := SofiaContact.parseBare_iff.mp hparse
    exact ⟨hcheck, hvars, rfl, htext⟩
  · obtain ⟨hcheck, hvars, htext⟩ := GroupCall.parseBare_iff.mp hparse
    exact ⟨hcheck, hvars, rfl, htext⟩
  · exact ⟨rfl, rfl, rfl, ErrorEndpoint.fromStr_iff.mp hparse⟩
  · obtain ⟨hcheck, hvars, hfilled, htext⟩ := LoopbackEndpoint.parseBare_iff.mp hparse
    exact ⟨hcheck, hvars, canonical_loopback.mpr hfilled, htext⟩
  · obtain ⟨hcheck, hvars, htext⟩ := SofiaGateway.parseBare_iff.mp hparse
    exact ⟨hcheck, hvars, rfl, htext⟩
  · obtain ⟨hcheck, hvars, htext⟩ := SofiaEndpoint.parseBare_iff.mp hparse
    exact ⟨hcheck, hvars, rfl, htext⟩
  · obtain ⟨hcheck, hvars, htext⟩ := UserEndpoint.parseBare_iff.mp hparse
    exact ⟨hcheck, hvars, rfl, htext⟩
  · obtain ⟨hcheck, hvars, htext⟩ := (AudioEndpoint.parseBare_iff (by simp)).mp hparse
    exact ⟨hcheck, hvars, rfl, htext⟩
  · obtain ⟨hcheck, hvars, htext⟩ := (AudioEndpoint.parseBare_iff (by simp)).mp hparse
    exact ⟨hcheck, hvars, rfl, htext⟩
  · obtain ⟨hcheck, hvars, htext⟩ := (AudioEndpoint.parseBare_iff (by simp)).mp hparse
    exact ⟨hcheck, hvars, rfl, htext⟩

theorem parsed_of_parseBare {text : Text} {ep : Endpoint} (h : parseBare text = .ok ep) :
    Parsed ep text := by
  rw [parseBare] at h
  cases hfind : prefixParsers.find? fun entry => entry.1.toList.isPrefixOf text with
  | none =>
      rw [hfind] at h
      cases h
  | some entry =>
      rw [hfind] at h
      exact parsed_of_entry (List.mem_of_find?_eq_some hfind) h

/-- A profile that is not `gateway` does not open the gateway's path. -/
theorem gateway_notPrefix {ep : SofiaEndpoint} (h : ep.checkDeliverable = .ok ()) :
    ¬ "sofia/gateway/".toList <+: ep.moduleText := by
  rintro ⟨rest, hrest⟩
  obtain ⟨hprofile, hgateway, -⟩ := SofiaEndpoint.checkDeliverable_ok.mp h
  have hclear : '/' ∉ ep.profile := notMem_of_checkField hprofile (by simp : "/" ∈ _) (by simp)
  have hsplit : "gateway".toList ++ '/' :: rest = ep.profile ++ '/' :: ep.destination := by
    have happend : "sofia/".toList ++ ("gateway".toList ++ '/' :: rest) =
        "sofia/".toList ++ (ep.profile ++ '/' :: ep.destination) :=
      hrest.trans (List.append_assoc _ _ _)
    exact List.append_cancel_left happend
  have hfirst := congrArg (Text.splitFirst '/') hsplit
  rw [Text.splitFirst_append (by decide), Text.splitFirst_append hclear] at hfirst
  obtain ⟨hname, -⟩ := Prod.mk.inj (Option.some.inj hfirst)
  rw [← hname] at hgateway
  revert hgateway
  decide

/-- The text of a device opens with its module's name. -/
theorem device_opening {ep : AudioEndpoint} {kind : String} {text : Text}
    (h : text = ep.moduleText kind ∨ ep.destination = none ∧ text = kind.toList ++ ['/']) :
    ∃ rest, text = kind.toList ++ rest := by
  rcases h with rfl | ⟨-, rfl⟩
  · rw [AudioEndpoint.moduleText]
    cases ep.destination with
    | none => exact ⟨[], (List.append_nil _).symm⟩
    | some destination => exact ⟨'/' :: destination, rfl⟩
  · exact ⟨['/'], rfl⟩

theorem parseBare_of_parsed {text : Text} {ep : Endpoint} (h : Parsed ep text) :
    parseBare text = .ok ep := by
  obtain ⟨hcheck, hvars, hcanonical, hspells⟩ := h
  cases ep with
  | sofia ep =>
      obtain rfl : text = ep.moduleText := hspells
      refine (parseBare_of_opening 5 (List.append_assoc _ _ _) fun _ =>
        gateway_notPrefix hcheck).trans ?_
      exact map_ok_iff.mpr ⟨ep, SofiaEndpoint.parseBare_iff.mpr ⟨hcheck, hvars, rfl⟩, rfl⟩
  | sofiaGateway ep =>
      obtain rfl : text = ep.moduleText := hspells
      refine (parseBare_of_opening 4 (List.append_assoc _ _ _) (by simp)).trans ?_
      exact map_ok_iff.mpr ⟨ep, SofiaGateway.parseBare_iff.mpr ⟨hcheck, hvars, rfl⟩, rfl⟩
  | loopback ep =>
      obtain rfl : text = ep.moduleText := hspells
      have hfilled := canonical_loopback.mp hcanonical
      obtain ⟨rest, hrest, -⟩ := LoopbackEndpoint.read_moduleText hcheck hvars hfilled
      refine (parseBare_of_opening 3 hrest (by simp)).trans ?_
      exact map_ok_iff.mpr ⟨ep, LoopbackEndpoint.parseBare_iff.mpr
        ⟨hcheck, hvars, hfilled, rfl⟩, rfl⟩
  | user ep =>
      obtain rfl : text = ep.moduleText := hspells
      obtain ⟨rest, hrest⟩ : ∃ rest, ep.moduleText = "user/".toList ++ rest := by
        rw [UserEndpoint.moduleText]
        cases ep.domain with
        | none => exact ⟨ep.name, rfl⟩
        | some domain => exact ⟨ep.name ++ '@' :: domain, List.append_assoc _ _ _⟩
      refine (parseBare_of_opening 6 hrest (by simp)).trans ?_
      exact map_ok_iff.mpr ⟨ep, UserEndpoint.parseBare_iff.mpr ⟨hcheck, hvars, rfl⟩, rfl⟩
  | sofiaContact ep =>
      obtain rfl : text = ep.moduleText := hspells
      refine (parseBare_of_opening 0 (List.append_assoc _ _ _) (by simp)).trans ?_
      exact map_ok_iff.mpr ⟨ep, SofiaContact.parseBare_iff.mpr ⟨hcheck, hvars, rfl⟩, rfl⟩
  | groupCall ep =>
      obtain rfl : text = ep.moduleText := hspells
      refine (parseBare_of_opening 1 (List.append_assoc _ _ _) (by simp)).trans ?_
      exact map_ok_iff.mpr ⟨ep, GroupCall.parseBare_iff.mpr ⟨hcheck, hvars, rfl⟩, rfl⟩
  | error ep =>
      obtain rfl : text = ep.toText := hspells
      refine (parseBare_of_opening 2 rfl (by simp)).trans ?_
      exact map_ok_iff.mpr ⟨ep, ErrorEndpoint.fromStr_iff.mpr rfl, rfl⟩
  | portAudio ep =>
      obtain ⟨rest, rfl⟩ := device_opening hspells
      refine (parseBare_of_opening 7 rfl (by simp)).trans ?_
      exact map_ok_iff.mpr ⟨ep, (AudioEndpoint.parseBare_iff (by simp)).mpr
        ⟨hcheck, hvars, hspells⟩, rfl⟩
  | pulseAudio ep =>
      obtain ⟨rest, rfl⟩ := device_opening hspells
      refine (parseBare_of_opening 8 rfl (by simp)).trans ?_
      exact map_ok_iff.mpr ⟨ep, (AudioEndpoint.parseBare_iff (by simp)).mpr
        ⟨hcheck, hvars, hspells⟩, rfl⟩
  | alsa ep =>
      obtain ⟨rest, rfl⟩ := device_opening hspells
      refine (parseBare_of_opening 9 rfl (by simp)).trans ?_
      exact map_ok_iff.mpr ⟨ep, (AudioEndpoint.parseBare_iff (by simp)).mpr
        ⟨hcheck, hvars, hspells⟩, rfl⟩

theorem parseBare_iff {text : Text} {ep : Endpoint} : parseBare text = .ok ep ↔ Parsed ep text :=
  ⟨parsed_of_parseBare, parseBare_of_parsed⟩

/-- The canonical endpoint is accepted and has the same text. -/
theorem parsed_canonical {ep : Endpoint} (h : ep.checkDeliverable = .ok ()) :
    Parsed (ep.canonical.setVariables none) ep.moduleText := by
  cases ep with
  | sofia ep => exact ⟨h, rfl, rfl, rfl⟩
  | sofiaGateway ep => exact ⟨h, rfl, rfl, rfl⟩
  | loopback ep =>
      obtain ⟨extension, context, dialplan, vars⟩ := ep
      cases context with
      | some context => exact ⟨h, rfl, rfl, rfl⟩
      | none =>
          cases dialplan with
          | none => exact ⟨h, rfl, rfl, rfl⟩
          | some dialplan =>
              -- An application has no dialplan behind it, so the context is one the load accepts.
              refine ⟨?_, rfl, rfl, rfl⟩
              have happ : isApplication extension = false := by
                by_contra happ
                obtain ⟨-, hnone⟩ := LoopbackEndpoint.checkDeliverable_application h
                  (by simpa using happ)
                cases hnone
              have hdefault : checkSegment "context" ["/"] (some defaultContext) = .ok () := by
                decide
              have hload : LoopbackEndpoint.checkDeliverable
                  ⟨extension, none, some dialplan, vars⟩ = .ok () := h
              show LoopbackEndpoint.checkDeliverable ⟨extension, some defaultContext, some dialplan,
                  none⟩ = .ok ()
              simp only [LoopbackEndpoint.checkDeliverable, happ, Bool.false_eq_true, if_false,
                then_ok_iff]
                at hload ⊢
              exact ⟨hload.1, hdefault, hload.2.2⟩
  | user ep => exact ⟨h, rfl, rfl, rfl⟩
  | sofiaContact ep => exact ⟨h, rfl, rfl, rfl⟩
  | groupCall ep => exact ⟨h, rfl, rfl, rfl⟩
  | error ep => exact ⟨h, rfl, rfl, rfl⟩
  | portAudio ep => exact ⟨h, rfl, rfl, .inl rfl⟩
  | pulseAudio ep => exact ⟨h, rfl, rfl, .inl rfl⟩
  | alsa ep => exact ⟨h, rfl, rfl, .inl rfl⟩

/-- **The dispatch accepts exactly the texts of the endpoints a configuration load accepts**, reads
every one of these endpoints back from its module text, and no text is two endpoints'. -/
theorem parseBare_exact :
    (∀ text ep, parseBare text = .ok ep ↔ Parsed ep text) ∧
      (∀ ep : Endpoint, ep.checkDeliverable = .ok () →
        parseBare ep.moduleText = .ok (ep.canonical.setVariables none)) ∧
      ∀ ep other : Endpoint, ep.checkDeliverable = .ok () → other.checkDeliverable = .ok () →
        ep.moduleText = other.moduleText →
          ep.canonical.setVariables none = other.canonical.setVariables none := by
  refine ⟨fun text ep => parseBare_iff, fun ep h => parseBare_of_parsed (parsed_canonical h), ?_⟩
  intro ep other hep hother htext
  have hread : parseBare ep.moduleText = .ok (other.canonical.setVariables none) :=
    (congrArg parseBare htext).trans (parseBare_of_parsed (parsed_canonical hother))
  exact Except.ok.inj ((parseBare_of_parsed (parsed_canonical hep)).symm.trans hread)

/-- A loopback with a dialplan alone comes back with the context its text names. -/
theorem parseBare_exact_loopback :
    parseBare (moduleText (.loopback ⟨"9199".toList, none, some "XML".toList, none⟩)) =
      .ok (.loopback ⟨"9199".toList, some "default".toList, some "XML".toList, none⟩) :=
  parseBare_exact.2.1 (.loopback ⟨"9199".toList, none, some "XML".toList, none⟩) (by decide)

end Endpoint
end EslTokio
