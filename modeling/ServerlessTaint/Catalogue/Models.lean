/-!
# Models supplied with the tool

The texts of the models of library functions, by file. The part of a file name before the first `_` names
the service to which its models belong.
-/

namespace ServerlessTaint

def suppliedModels : List (String × String) := [
  ("dynamodb_models.pysa",
    "# DynamoDB Client - Model for scan method\n" ++
    "def mypy_boto3_dynamodb.client.DynamoDBClient.scan(ScanFilter: TaintSink[Test]): ...\n" ++
    "\n" ++
    "# DynamoDB Table - Model for scan method\n" ++
    "def mypy_boto3_dynamodb.service_resource.Table.scan(ScanFilter: TaintSink[Test]): ...\n" ++
    "\n"),
  ("generic_models.pysa",
    "# =======================\n" ++
    "# Models for file objects\n" ++
    "# =======================\n" ++
    "# Model for builtin function open\n" ++
    "def open(file: TaintInTaintOut[LocalReturn]): ...\n" ++
    "\n" ++
    "# Models for write method\n" ++
    "def io.TextIOBase.write(self, __s: TaintSink[FileSystem_ReadWrite]): ...\n" ++
    "def io.TextIOBase.write(self, __s: TaintInTaintOut[Updates[self]]): ...\n" ++
    "\n" ++
    "# Model for context manager init\n" ++
    "def io.IOBase.__enter__(self: TaintInTaintOut[LocalReturn]): ...\n" ++
    "\n"),
  ("s3_models.pysa",
    "# S3 Client - Model for list_objects method\n" ++
    "def mypy_boto3_s3.client.S3Client.list_objects() -> TaintSource[UserControlled]: ...\n" ++
    "\n" ++
    "# S3 Client - Model for list_objects_v2 method\n" ++
    "def mypy_boto3_s3.client.S3Client.list_objects_v2() -> TaintSource[UserControlled]: ...\n" ++
    "\n" ++
    "# S3 Resource - Models for Bucket object\n" ++
    "def mypy_boto3_s3.service_resource.S3ServiceResource.Bucket(self, name: TaintInTaintOut[LocalReturn]): ...\n" ++
    "def mypy_boto3_s3.service_resource.ObjectSummary.delete(self: TaintSink[Test]): ...\n" ++
    "def mypy_boto3_s3.service_resource.BucketObjectsCollection.all(self: TaintSink[Test]): ...\n" ++
    "\n"),
  ("sns_models.pysa",
    "# SNS Client - Model for publish method\n" ++
    "def mypy_boto3_sns.client.SNSClient.publish(Message: TaintSink[FileSystem_ReadWrite]): ...\n")]

end ServerlessTaint
