import WazAISentinel.Builder.Graph

/-!
# The policy factory

`buildAssets` and `buildSubgraph` (`builder/src/policy/factory.cpp`) for the assets of one type. The
unordered set of the names of a namespace and the unordered map of the namespaces are lists here, in
any order. Of an asset the names and the list of parents are modelled; its expression is a pointer
that nothing looks into.
-/

namespace WazAISentinel.Builder

/-- `base::Name`, by its parts. -/
abbrev Name := List String

/-- `store::NamespaceId`. -/
abbrev NamespaceId := String

/-- The types of assets. -/
inductive AssetType where
  | decoder
  | rule
  | output
  | filter
  deriving DecidableEq

/-- `assetTypeStr`, which is also the first part of the names of that type. -/
def AssetType.str : AssetType → String
  | .decoder => "decoder"
  | .rule => "rule"
  | .output => "output"
  | .filter => "filter"

/-! ## Names -/

/-- The checks of `syntax::name`: the first part and the number of parts. -/
def isOfPart (part : String) (name : Name) : Bool := name.head? = some part && name.length = 3

/-- A name of a decoder. -/
def isDecoder (name : Name) : Bool := isOfPart "decoder" name

/-- A name of a rule. -/
def isRule (name : Name) : Bool := isOfPart "rule" name

/-- A name of an output. -/
def isOutput (name : Name) : Bool := isOfPart "output" name

/-- A name of a filter. -/
def isFilter (name : Name) : Bool := isOfPart "filter" name

/-- The check of a name that is made before it is added under a type. -/
def AssetType.accepts : AssetType → Name → Bool
  | .decoder => isDecoder
  | .rule => isRule
  | .output => isOutput
  | .filter => isFilter

/-- The name of the input node of a type's subgraph. -/
def AssetType.input (assetType : AssetType) : Name := [assetType.str, "Input"]

/-! ## Assets -/

variable {π : Type}

/-- A built asset. No parent is listed twice. -/
structure Asset (π : Type) where
  name : Name
  expression : π
  parents : List Name
  nodup : parents.Nodup

/-- `Asset {}`, with the null expression. -/
def Asset.empty [Inhabited π] : Asset π := ⟨[], default, [], List.nodup_nil⟩

/-- What the building of a policy throws. -/
inductive BuildError where
  | graph (error : GraphError Name)
  /-- `unordered_map::at` with a key that is not there. -/
  | outOfRange (key : Name)
  /-- "Parent '…' does not exist, required by […]" -/
  | parentMissing (parent : Name) (children : List Name)
  /-- "Child '…' does not exist, required by …" -/
  | childMissing (child parent : Name)
  /-- "Asset '…' not found" -/
  | assetNotFound (name : Name)
  /-- "Parent '…' is duplicated" -/
  | parentDuplicated (parent : Name)
  deriving DecidableEq

/-- The document of an asset, as far as it is read here. -/
structure AssetDoc (π : Type) where
  name : Name
  parents : List Name
  expression : π

theorem nodup_concat_of_any_eq_false {parents : List Name} (hnodup : parents.Nodup) {parent : Name}
    (h : ¬ parents.any (fun p => p = parent)) : (parents ++ [parent]).Nodup := by
  rw [List.nodup_append]
  refine ⟨hnodup, List.nodup_singleton parent, fun p hp q hq => ?_⟩
  obtain rfl := List.mem_singleton.1 hq
  rintro rfl
  exact h (List.any_eq_true.2 ⟨p, hp, decide_eq_true rfl⟩)

/-- One round of the loop of `getParents`. -/
def addParent (parents : { l : List Name // l.Nodup }) (parent : Name) :
    Except BuildError { l : List Name // l.Nodup } :=
  if h : parents.1.any (fun p => p = parent) then .error (.parentDuplicated parent)
  else .ok ⟨parents.1 ++ [parent], nodup_concat_of_any_eq_false parents.2 h⟩

/-- `AssetBuilder::getParents`. -/
def getParents (names : List Name) : Except BuildError { l : List Name // l.Nodup } :=
  names.foldlM addParent ⟨[], List.nodup_nil⟩

/-- `AssetBuilder::operator()`. -/
def assetBuilder (doc : AssetDoc π) : Except BuildError (Asset π) :=
  (getParents doc.parents).map fun parents => ⟨doc.name, doc.expression, parents.1, parents.2⟩

/-! ## `buildAssets` -/

/-- `SubgraphData`. -/
structure SubgraphData where
  defaultParents : List (NamespaceId × Name)
  assets : List (NamespaceId × List Name)

/-- All names, in the order in which the loops visit them. -/
def SubgraphData.names (data : SubgraphData) : List Name := data.assets.flatMap Prod.snd

/-- An asset without parents gets the default parent of its namespace, unless that is the asset
itself. -/
def withDefaultParent (data : SubgraphData) (assetNs : NamespaceId) (assetName : Name)
    (asset : Asset π) : Asset π :=
  if asset.parents = [] then
    match data.defaultParents.lookup assetNs with
    | none => asset
    | some parent =>
      if parent ≠ assetName
        then { asset with parents := [parent], nodup := List.nodup_singleton parent } else asset
  else asset

/-- `unordered_map::emplace`: an entry that is there stays. -/
def emplace (built : AList fun _ : Name => Asset π) (assetName : Name) (asset : Asset π) :
    AList fun _ : Name => Asset π :=
  if (built.lookup assetName).isSome then built else built.insert assetName asset

/-- An asset is built from its document. -/
def buildAsset (store : Name → Option (AssetDoc π)) (data : SubgraphData) (assetNs : NamespaceId)
    (built : AList fun _ : Name => Asset π) (assetName : Name) :
    Except BuildError (AList fun _ : Name => Asset π) :=
  match store assetName with
  | none => .error (.assetNotFound assetName)
  | some doc =>
    (assetBuilder doc).map fun asset =>
      emplace built assetName (withDefaultParent data assetNs assetName asset)

/-- `buildAssets` for one type. -/
def buildAssets (store : Name → Option (AssetDoc π)) (data : SubgraphData) :
    Except BuildError (AList fun _ : Name => Asset π) :=
  data.assets.foldlM (fun built entry => entry.2.foldlM (buildAsset store data entry.1) built) ∅

/-! ## `buildSubgraph` -/

/-- A subgraph of assets. -/
abbrev AssetGraph (π : Type) := Graph Name (Asset π)

/-- An exception of the graph is one of the factory. -/
def fromGraph {α : Type} (result : Except (GraphError Name) α) : Except BuildError α :=
  result.mapError .graph

/-- 2. of `buildSubgraph`: the node of an asset and the edges from its parents, or from the input
node. -/
def addAsset (subgraphName : Name) (assets : AList fun _ : Name => Asset π)
    (subgraph : AssetGraph π) (assetName : Name) : Except BuildError (AssetGraph π) :=
  match assets.lookup assetName with
  | none => .error (.outOfRange assetName)
  | some asset =>
    (fromGraph (subgraph.addNode assetName asset)).bind fun subgraph =>
      if asset.parents = [] then fromGraph (subgraph.addEdge subgraphName assetName)
      else fromGraph (asset.parents.foldlM
        (fun (g : AssetGraph π) parent => g.addEdge parent assetName) subgraph)

/-- 3.1 of `buildSubgraph` for one filter. -/
def injectFilter (filters : AList fun _ : Name => Asset π) (subgraph : AssetGraph π)
    (filterName : Name) : Except BuildError (AssetGraph π) :=
  match filters.lookup filterName with
  | none => .error (.outOfRange filterName)
  | some filter =>
    filter.parents.foldlM
      (fun (g : AssetGraph π) parent =>
        if g.hasNode parent then fromGraph (g.injectNode filterName filter parent)
          else .ok g) subgraph

/-- 3. of `buildSubgraph`. -/
def injectFilters (filtersData : SubgraphData) (filters : AList fun _ : Name => Asset π)
    (subgraph : AssetGraph π) : Except BuildError (AssetGraph π) :=
  filtersData.assets.foldlM (fun g entry => entry.2.foldlM (injectFilter filters) g) subgraph

/-- One round of the loop over the namespaces. The filters are gone through in each round. -/
def addNamespace (subgraphName : Name) (filtersData : SubgraphData)
    (assets filters : AList fun _ : Name => Asset π) (subgraph : AssetGraph π)
    (entry : NamespaceId × List Name) : Except BuildError (AssetGraph π) :=
  (entry.2.foldlM (addAsset subgraphName assets) subgraph).bind (injectFilters filtersData filters)

/-- 4. of `buildSubgraph` for one parent. -/
def checkChildren (subgraph : AssetGraph π) (parent : Name) (children : List Name) :
    Except BuildError Unit :=
  if subgraph.hasNode parent then
    children.forM fun child => if subgraph.hasNode child then .ok ()
      else .error (.childMissing child parent)
  else .error (.parentMissing parent children)

/-- 4. of `buildSubgraph`. -/
def checkIntegrity (subgraph : AssetGraph π) : Except BuildError Unit :=
  subgraph.edges.entries.forM fun entry => checkChildren subgraph entry.1 entry.2

/-- `buildSubgraph`. -/
def buildSubgraph [Inhabited π] (subgraphName : Name) (subgraphData filtersData : SubgraphData)
    (assets filters : AList fun _ : Name => Asset π) : Except BuildError (AssetGraph π) :=
  (subgraphData.assets.foldlM (addNamespace subgraphName filtersData assets filters)
    (Graph.create subgraphName Asset.empty)).bind fun subgraph =>
      (checkIntegrity subgraph).map fun _ => subgraph

end WazAISentinel.Builder
