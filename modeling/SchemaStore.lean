import SchemaStore.Catalog
import SchemaStore.Facade
import SchemaStore.Proofs.Codec.Dynamic
import SchemaStore.Proofs.Codec.FieldTexts
import SchemaStore.Proofs.Codec.IntegerText
import SchemaStore.Proofs.Codec.LegacyAgreement
import SchemaStore.Proofs.Codec.MergeOrder
import SchemaStore.Proofs.Facade.Batches
import SchemaStore.Proofs.Facade.DynamicMerge
import SchemaStore.Proofs.Facade.FloatKey
import SchemaStore.Proofs.Facade.MergeArgument
import SchemaStore.Proofs.Facade.Monitored
import SchemaStore.Proofs.Facade.Positions
import SchemaStore.Proofs.Facade.Reports
import SchemaStore.Proofs.Facade.Revision
import SchemaStore.Proofs.Facade.Sharing
import SchemaStore.Proofs.Facade.Soundness
import SchemaStore.Proofs.Facade.StoredKeys
import SchemaStore.Proofs.Json.Nesting
import SchemaStore.Proofs.Store.ForeignBytes
import SchemaStore.Proofs.Store.Keyspace
import SchemaStore.Settings.Load
import SchemaStore.Store.Keyspace
import SchemaStore.Store.Memory
import SchemaStore.Store.Monitored
